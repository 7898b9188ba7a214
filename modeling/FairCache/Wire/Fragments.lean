import FairCache.Wire.Matching
import FairCache.Wire.RoundTrip

/-!
# Commands over a connection that splits what is sent

One thread calls `set`, `get`, `exists` and `list` one after the other. The server receives headers and bodies in a loop,
the client receives its headers with one `recv`.

* `Dialogue`, `Dialogue.step` : the connector, the server and the bytes between them, and one call;
* `Call.whole` : the call as it is when every `recv` returns all the bytes;
* `Dialogue.HeaderWhole` : the `recv` of the header returns all of it;
* `Dialogue.along_headerWhole_iff` : when a sequence of calls does not depend on how the bytes arrive.
-/

namespace FairCache

open Lib

/-- What a call comes to. -/
inductive CallResult
  | stored
  /-- `exists` -/
  | present (b : Bool)
  /-- `get` -/
  | value (data : Option Bytes)
  /-- `list` -/
  | keys (keys : List String)
  | raised
  deriving DecidableEq

/-- A call. -/
inductive Call
  | set (key : String) (obj : Bytes)
  | ask (r : Request)
  deriving DecidableEq

namespace Call

/-- The message that it sends. -/
def msg : Call → ClientMetaMessage
  | .set key obj => { command := Constants.clientPut, key := key, length := obj.length }
  | .ask r => r.msg

/-- What it sends after the message. -/
def body : Call → Bytes
  | .set _ obj => obj
  | .ask _ => []

end Call

/-- A call, and how the bytes of its command and those of its response arrive. -/
structure Delivered where
  call : Call
  up : Delivery
  down : Delivery

/-- The same call, with every `recv` returning all the bytes. -/
def Delivered.whole (c : Delivered) : Delivered := { c with up := .whole, down := .whole }

/-- The connector and the server. -/
structure Dialogue where
  server : LMCacheServer
  /-- The exception that ended `handle_client`, which closes the socket, or that it waits for a lock forever. -/
  ended : Option ServerError
  toServer : Bytes
  toClient : Bytes
  results : List CallResult
  /-- The commands with their bodies, as the server executed them. -/
  executed : List Record

namespace Dialogue

/-- A fresh connection to the server. -/
def new (server : LMCacheServer) : Dialogue :=
  { server := server, ended := none, toServer := [], toClient := [], results := [], executed := [] }

/-- Is the server's end of the socket closed? -/
def closed (s : Dialogue) : Bool :=
  match s.ended with
  | none => false
  | some .blocked => false
  | some _ => true

/-- One turn of the server, when all the bytes of a command are there. -/
def serverTurn (s : Dialogue) (up : Delivery) : Option Dialogue :=
  if s.ended.isSome then none
  else
    match LMCacheServer.format.receive (up.socket s.toServer) with
    | none => none
    | some (.error e) => some { s with ended := some (.wire e) }
    | some (.ok (m, body, rest)) =>
      match s.server.serve m (some body) with
      | .error (server, e) => some { s with server := server, ended := some e, toServer := rest }
      | .ok server =>
        some
          { s with
            server := server
            toServer := rest
            toClient := s.toClient ++ server.sent.drop s.server.sent.length
            executed := s.executed ++ [(m, body)] }

/-- The server goes on while it can, for at most as many turns. -/
def serverLoop (up : Delivery) : ℕ → Dialogue → Dialogue
  | 0, s => s
  | n + 1, s =>
    match s.serverTurn up with
    | none => s
    | some s => serverLoop up n s

/-- The command is sent, and the server comes to it. What is sent to a server that ended is lost. -/
def send (s : Dialogue) (c : Delivered) (header : Bytes) : Dialogue :=
  let s := { s with toServer := s.toServer ++ header ++ c.call.body }
  serverLoop c.up s.toServer.length s

/-- The call is over. -/
def returns (s : Dialogue) (r : CallResult) : Dialogue := { s with results := s.results ++ [r] }

/-- `receive_all(n)`, which blocks while the server may still send something. -/
def receiveAll (s : Dialogue) (sock : Socket) (n : ℤ) (finish : Option Bytes → CallResult) : Except Dialogue Dialogue :=
  -- `bytearray(n)`
  if n < 0 then .ok ({ s with toClient := sock.bytes }.returns .raised)
  else
    match sock.receiveAll n.toNat with
    | (some data, sock) => .ok ({ s with toClient := sock.bytes }.returns (finish (some data)))
    | (none, sock) => if s.closed then .ok ({ s with toClient := sock.bytes }.returns (finish none)) else .error s

/-- `list(filter(lambda s: len(s) > 0, data.decode().split("\n")))` ; `None` has no `decode`. -/
def keysOf : Option Bytes → CallResult
  | none => .raised
  | some data =>
    match Bytes.decode data with
    | none => .raised
    | some text => .keys (((Bytes.split '\n' text).filter (· ≠ [])).map String.ofList)

/-- The client's side of a request. `recv` blocks while nothing is there and the server may still send something. -/
def receive (s : Dialogue) (r : Request) (down : Delivery) : Except Dialogue Dialogue :=
  if s.toClient = [] ∧ s.closed = false then .error s
  else
    let (data, sock) := (down.socket s.toClient).recv ServerMetaMessage.packlength
    match ServerMetaMessage.deserialize data with
    | .error _ => .ok ({ s with toClient := sock.bytes }.returns .raised)
    | .ok m =>
      match r with
      | .contains _ =>
        .ok ({ s with toClient := sock.bytes }.returns (.present (m.code == Constants.serverSuccess)))
      | .get _ =>
        if m.code ≠ Constants.serverSuccess then .ok ({ s with toClient := sock.bytes }.returns (.value none))
        else s.receiveAll sock m.length .value
      | .list =>
        if m.code ≠ Constants.serverSuccess then .ok ({ s with toClient := sock.bytes }.returns (.keys []))
        else s.receiveAll sock m.length keysOf

/-- One call. A message that cannot be packed raises, and nothing is sent; the error is a call that blocks forever. -/
def step (s : Dialogue) (c : Delivered) : Except Dialogue Dialogue :=
  match c.call.msg.serialize with
  | .error _ => .ok (s.returns .raised)
  | .ok header =>
    match c.call with
    | .set _ _ => .ok ((s.send c header).returns .stored)
    | .ask r => (s.send c header).receive r c.down

/-! ## What the server does -/

/-- The `recv` of the header returns all of it, if there is something to return. -/
def HeaderWhole (s : Dialogue) (c : Delivered) : Prop :=
  match c.call with
  | .set _ _ => True
  | .ask r =>
    ∀ header, r.msg.serialize = .ok header →
      ((c.down.socket (s.send c header).toClient).recv ServerMetaMessage.packlength).1 =
        (s.send c header).toClient.take ServerMetaMessage.packlength

/-- **Between the calls nothing is unread.** -/
structure Inv (s : Dialogue) : Prop where
  toClient : s.toClient = []
  toServer : s.ended = none → s.toServer = []

/-- Bytes that answer the request: a header, and data where the request receives it. -/
structure Answers (r : Request) (b : Bytes) (code : ℤ) (data : Bytes) : Prop where
  bytes : b = [code, (data.length : ℤ)].flatMap Bytes.packInt ++ data
  isInt32 : Bytes.IsInt32 code
  length : data.length < 2 ^ 31
  wanted : (r.wantsData && code == Constants.serverSuccess) = false → data = []
  text : r = .list → ∃ text, Bytes.decode data = some text

/-- What is sent back to the call. -/
def Answered : Call → Bytes → Prop
  | .set _ _, b => b = []
  | .ask r, b => ∃ code data, Answers r b code data

theorem serverTurn_congr (s : Dialogue) (up up' : Delivery) : s.serverTurn up = s.serverTurn up' := by
  unfold serverTurn
  rw [receive_eq_read, receive_eq_read, up.bytes_socket, up'.bytes_socket]

theorem serverLoop_congr (up up' : Delivery) (n : ℕ) : ∀ s, serverLoop up n s = serverLoop up' n s := by
  induction n with
  | zero => intro s; rfl
  | succ n ih =>
    intro s
    unfold serverLoop
    rw [s.serverTurn_congr up up']
    cases s.serverTurn up' with
    | none => rfl
    | some t => exact ih t

/-- **What the server does does not depend on how the command arrives.** -/
theorem send_whole (s : Dialogue) (c : Delivered) (header : Bytes) : s.send c.whole header = s.send c header :=
  serverLoop_congr _ _ _ _

/-- A server that cannot go on waits. -/
theorem serverLoop_of_none {s : Dialogue} {up : Delivery} (h : s.serverTurn up = none) (n : ℕ) : serverLoop up n s = s := by
  cases n with
  | zero => rfl
  | succ n => rw [serverLoop, h]

theorem serverTurn_ended {s : Dialogue} (up : Delivery) (h : s.ended ≠ none) : s.serverTurn up = none := by
  unfold serverTurn
  rw [if_pos (Option.isSome_iff_ne_none.mpr h)]

theorem serverTurn_idle {s : Dialogue} (up : Delivery) (h : s.toServer = []) : s.serverTurn up = none := by
  unfold serverTurn
  rw [receive_eq_read, up.bytes_socket, h]
  split_ifs
  · rfl
  · rfl

/-- **What was packed is read as one command**, unless its key cannot be decoded. -/
theorem read_command {c : Call} {header : Bytes} (h : c.msg.serialize = .ok header) :
    0 < header.length ∧ ((∃ e, LMCacheServer.format.read (header ++ c.body) = some (.error e)) ∨
      ∃ m : ClientMetaMessage, m.command = c.msg.command ∧
        LMCacheServer.format.read (header ++ c.body) = some (.ok (m, c.body, []))) := by
  have hserializes : c.msg.Serializes := by
    unfold ClientMetaMessage.serialize packInts at h
    split_ifs at h with hkey hfit
    · rw [List.forall_mem_cons, List.forall_mem_singleton] at hfit
      exact { command := hfit.1, length := hfit.2, key := hkey }
    · cases h
  have hints : ∀ n ∈ [c.msg.command, c.msg.length], Bytes.IsInt32 n :=
    List.forall_mem_cons.mpr ⟨hserializes.command, List.forall_mem_singleton.mpr hserializes.length⟩
  rw [ClientMetaMessage.serialize_of_serializes hserializes] at h
  cases h
  have hlength := c.msg.length_packed
  have hpos : 0 < ClientMetaMessage.packlength := by decide
  refine ⟨by omega, ?_⟩
  have hcommand : intAt c.msg.packed 0 = c.msg.command := intAt_packedInts hints _ Nat.zero_lt_two
  have hint : intAt c.msg.packed 1 = c.msg.length := intAt_packedInts hints _ Nat.one_lt_two
  have hbody : LMCacheServer.bodyLength ⟨c.msg.command, "", c.msg.length⟩ = c.body.length := by
    cases c with
    | set key obj => rfl
    | ask r => exact if_neg (Connection.command_ne_put r)
  unfold Format.read
  have hheader : LMCacheServer.format.headerLength = ClientMetaMessage.packlength := rfl
  rw [hheader, if_neg (by rw [List.length_append]; omega), List.take_left' hlength, List.drop_left' hlength]
  have hread : LMCacheServer.format.deserialize c.msg.packed = ClientMetaMessage.deserialize c.msg.packed := rfl
  rw [hread, ClientMetaMessage.deserialize, if_pos hlength]
  cases hdecode : Bytes.decode (c.msg.packed.drop 8) with
  | none => exact .inl ⟨_, rfl⟩
  | some key =>
    refine .inr ⟨⟨intAt c.msg.packed 0, String.ofList (Bytes.strip key), intAt c.msg.packed 1⟩, hcommand, ?_⟩
    dsimp only
    have hlen : LMCacheServer.format.bodyLength
        ⟨intAt c.msg.packed 0, String.ofList (Bytes.strip key), intAt c.msg.packed 1⟩ = c.body.length := by
      rw [hcommand, hint, ← hbody]
      rfl
    rw [hlen, if_neg (Nat.lt_irrefl _), List.take_length, List.drop_length]

/-- What the server sends for a command. -/
theorem answered_of_serve {server server' : LMCacheServer} {c : Call} {m : ClientMetaMessage} {body : Option Bytes}
    (hm : m.command = c.msg.command) (h : server.serve m body = .ok server') :
    Answered c (server'.sent.drop server.sent.length) := by
  cases c with
  | set key obj =>
    have hput : m.command = Constants.clientPut := hm
    unfold LMCacheServer.serve at h
    rw [if_pos hput] at h
    split at h
    · cases h
    · cases h
      exact List.drop_length
  | ask r =>
    obtain ⟨code, data, hanswer, hwanted, hlist⟩ := Connection.answer_of_serve hm h
    obtain ⟨hsent, hcode, hlength⟩ := Connection.sent_answer hanswer
    rw [hsent, List.drop_left]
    refine ⟨code, data, rfl, hcode, hlength, hwanted, fun hr => ?_⟩
    rw [hlist hr]
    exact ⟨_, Bytes.decode_encode _⟩

/-- **The server answers a command, or it has ended and sends nothing.** -/
theorem send_spec {s : Dialogue} {c : Delivered} {header : Bytes} (hs : s.Inv) (h : c.call.msg.serialize = .ok header) :
    (s.send c header).results = s.results ∧
      (((s.send c header).ended ≠ none ∧ (s.send c header).toClient = []) ∨
        ((s.send c header).ended = none ∧ (s.send c header).toServer = [] ∧
          Answered c.call (s.send c header).toClient)) := by
  obtain ⟨hpos, hread⟩ := read_command h
  unfold send
  dsimp only
  by_cases hended : s.ended = none
  · have hserver := hs.toServer hended
    rw [hserver, List.nil_append]
    obtain ⟨n, hn⟩ : ∃ n, (header ++ c.call.body).length = n + 1 := by
      refine ⟨(header ++ c.call.body).length - 1, ?_⟩
      rw [List.length_append]
      omega
    rw [hn, serverLoop]
    unfold serverTurn
    dsimp only
    rw [receive_eq_read, c.up.bytes_socket, hended, if_neg (by simp)]
    rcases hread with ⟨e, hread⟩ | ⟨m, hm, hread⟩
    · rw [hread]
      dsimp only
      rw [serverLoop_of_none (serverTurn_ended c.up (Option.some_ne_none _))]
      exact ⟨rfl, .inl ⟨Option.some_ne_none _, hs.toClient⟩⟩
    · rw [hread]
      dsimp only
      cases hserve : s.server.serve m (some c.call.body) with
      | error e =>
        dsimp only
        rw [serverLoop_of_none (serverTurn_ended c.up (Option.some_ne_none _))]
        exact ⟨rfl, .inl ⟨Option.some_ne_none _, hs.toClient⟩⟩
      | ok server =>
        dsimp only
        rw [serverLoop_of_none (serverTurn_idle c.up rfl)]
        refine ⟨rfl, .inr ⟨rfl, rfl, ?_⟩⟩
        show Answered c.call (s.toClient ++ server.sent.drop s.server.sent.length)
        rw [hs.toClient, List.nil_append]
        exact answered_of_serve hm hserve
  · have hnone : serverTurn { s with toServer := s.toServer ++ header ++ c.call.body } c.up = none :=
      serverTurn_ended c.up hended
    rw [serverLoop_of_none hnone]
    exact ⟨rfl, .inl ⟨hended, hs.toClient⟩⟩

/-! ## What the client receives -/

/-- What a request comes to that receives its answer. -/
def resultOf (r : Request) (code : ℤ) (data : Bytes) : CallResult :=
  match r with
  | .contains _ => .present (code == Constants.serverSuccess)
  | .get _ => if code ≠ Constants.serverSuccess then .value none else .value (some data)
  | .list => if code ≠ Constants.serverSuccess then .keys [] else keysOf (some data)

theorem resultOf_ne_raised {r : Request} {b : Bytes} {code : ℤ} {data : Bytes} (h : Answers r b code data) :
    resultOf r code data ≠ .raised := by
  cases r with
  | contains key => exact fun h => by cases h
  | get key =>
    unfold resultOf
    dsimp only
    split_ifs <;> exact fun h => by cases h
  | list =>
    obtain ⟨text, htext⟩ := h.text rfl
    unfold resultOf keysOf
    dsimp only
    rw [htext]
    split_ifs <;> exact fun h => by cases h

/-- The header of an answer is read back. -/
theorem deserialize_answer {r : Request} {b : Bytes} {code : ℤ} {data : Bytes} (h : Answers r b code data) :
    ServerMetaMessage.deserialize (b.take ServerMetaMessage.packlength) = .ok { code := code, length := data.length } ∧
      b.drop ServerMetaMessage.packlength = data := by
  have hint : Bytes.IsInt32 (data.length : ℤ) := by
    have hlength := h.length
    unfold Bytes.IsInt32
    omega
  have hread := ServerMetaMessage.deserialize_serialize (m := ⟨code, data.length⟩) h.isInt32 hint
  have hfit : ∀ n ∈ [code, (data.length : ℤ)], Bytes.IsInt32 n :=
    List.forall_mem_cons.mpr ⟨h.isInt32, List.forall_mem_singleton.mpr hint⟩
  rw [ServerMetaMessage.serialize, packInts_of_fit hfit] at hread
  have hheader : ([code, (data.length : ℤ)].flatMap Bytes.packInt).length = ServerMetaMessage.packlength :=
    length_packedInts _
  rw [h.bytes, List.take_left' hheader, List.drop_left' hheader]
  exact ⟨hread, rfl⟩

/-- The data is received to its last byte, in whatever packets. -/
theorem receiveAll_all (s : Dialogue) (sock : Socket) (finish : Option Bytes → CallResult) :
    s.receiveAll sock sock.bytes.length finish = .ok ({ s with toClient := [] }.returns (finish (some sock.bytes))) := by
  obtain ⟨sock', hrecv, hbytes⟩ := Socket.receiveAll_of_le (Nat.le_refl sock.bytes.length)
  rw [List.take_length] at hrecv
  rw [List.drop_length] at hbytes
  unfold receiveAll
  rw [if_neg (by omega), Int.toNat_natCast, hrecv]
  dsimp only
  rw [hbytes]

/-- **A request whose header arrives whole returns what the answer says**, and leaves nothing. -/
theorem receive_whole {s : Dialogue} {r : Request} {down : Delivery} {code : ℤ} {data : Bytes}
    (hanswer : Answers r s.toClient code data)
    (hwhole : ((down.socket s.toClient).recv ServerMetaMessage.packlength).1 =
      s.toClient.take ServerMetaMessage.packlength) :
    s.receive r down = .ok ({ s with toClient := [] }.returns (resultOf r code data)) := by
  obtain ⟨hread, hdrop⟩ := deserialize_answer hanswer
  have hne : s.toClient ≠ [] := by
    intro hnil
    rw [hnil] at hread
    cases hread
  have hrest : ((down.socket s.toClient).recv ServerMetaMessage.packlength).2.bytes = data := by
    rw [Socket.bytes_recv (by decide) (by rw [down.bytes_socket]; exact hwhole), down.bytes_socket, hdrop]
  have hwanted := hanswer.wanted
  unfold receive
  rw [if_neg (fun h => hne h.1)]
  dsimp only
  rw [hwhole, hread]
  dsimp only
  cases r with
  | contains key =>
    dsimp only
    rw [hrest, hwanted rfl]
    rfl
  | get key =>
    dsimp only
    unfold resultOf
    dsimp only
    split_ifs with hcode
    · rw [hrest, hwanted (by simpa [Request.wantsData] using hcode)]
    · rw [← hrest]
      exact receiveAll_all _ _ _
  | list =>
    dsimp only
    unfold resultOf
    dsimp only
    split_ifs with hcode
    · rw [hrest, hwanted (by simpa [Request.wantsData] using hcode)]
    · rw [← hrest]
      exact receiveAll_all _ _ _

/-- **One whose header does not raises**, whatever the answer says. -/
theorem receive_short {s : Dialogue} {r : Request} {down : Delivery} {code : ℤ} {data : Bytes}
    (hanswer : Answers r s.toClient code data)
    (hshort : ((down.socket s.toClient).recv ServerMetaMessage.packlength).1 ≠
      s.toClient.take ServerMetaMessage.packlength) :
    ∃ t, s.receive r down = .ok t ∧ t.results = s.results ++ [.raised] := by
  have hne : s.toClient ≠ [] := by
    intro hnil
    have hread := (deserialize_answer hanswer).1
    rw [hnil] at hread
    cases hread
  have hlt := Socket.length_recv_lt (s := down.socket s.toClient) (n := ServerMetaMessage.packlength) (by decide)
    (by rw [down.bytes_socket]; exact hshort)
  have hraised : s.receive r down = .ok ({ s with
      toClient := ((down.socket s.toClient).recv ServerMetaMessage.packlength).2.bytes }.returns .raised) := by
    unfold receive
    rw [if_neg (fun h => hne h.1)]
    dsimp only
    rw [ServerMetaMessage.deserialize, if_neg (Nat.ne_of_lt hlt)]
  exact ⟨_, hraised, rfl⟩

/-- What is read where nothing is left. -/
theorem recv_nil (down : Delivery) :
    ((down.socket []).recv ServerMetaMessage.packlength).1 = [] ∧
      ((down.socket []).recv ServerMetaMessage.packlength).2.bytes = [] := by
  obtain ⟨happ, -, -⟩ := (down.socket []).recv_spec (n := ServerMetaMessage.packlength) (by decide)
  rw [down.bytes_socket] at happ
  exact List.append_eq_nil_iff.mp happ

/-- A request to a server that ended blocks or raises. -/
theorem receive_ended {s : Dialogue} (h : s.toClient = []) (r : Request) (down : Delivery) :
    s.receive r down = if s.closed = false then .error s else .ok (s.returns .raised) := by
  obtain ⟨hrecv, hbytes⟩ := recv_nil down
  unfold receive
  rw [h]
  by_cases hclosed : s.closed = false
  · rw [if_pos ⟨rfl, hclosed⟩, if_pos hclosed]
  · rw [if_neg (fun hc => hclosed hc.2), if_neg hclosed]
    dsimp only
    rw [hrecv, hbytes]
    show Except.ok _ = _
    rw [← h]

/-! ## Whole runs -/

/-- **Under the condition a call is what it is with every `recv` returning all the bytes.** -/
theorem step_whole (s : Dialogue) (c : Delivered) (hs : s.Inv) (hc : s.HeaderWhole c) :
    s.step c = s.step c.whole ∧ ∀ t, s.step c = .ok t → t.Inv := by
  unfold step
  show _ = (match c.call.msg.serialize with | .error _ => _ | .ok header => _) ∧ _
  cases hser : c.call.msg.serialize with
  | error e =>
    refine ⟨rfl, fun t ht => ?_⟩
    cases ht
    exact ⟨hs.toClient, hs.toServer⟩
  | ok header =>
    dsimp only
    rw [send_whole]
    obtain ⟨-, hsent⟩ := send_spec hs hser
    show _ = (match c.call with | .set _ _ => _ | .ask r => _) ∧ _
    unfold HeaderWhole at hc
    cases hcall : c.call with
    | set key obj =>
      refine ⟨rfl, fun t ht => ?_⟩
      cases ht
      rw [hcall] at hsent
      rcases hsent with ⟨hended, hclient⟩ | ⟨-, hserver, hclient⟩
      · exact ⟨hclient, fun h => absurd h hended⟩
      · exact ⟨hclient, fun _ => hserver⟩
    | ask r =>
      rw [hcall] at hsent hc hser
      have hwhole := hc header hser
      dsimp only
      rcases hsent with ⟨hended, hclient⟩ | ⟨hended, hserver, code, data, hanswer⟩
      · rw [receive_ended hclient, receive_ended hclient]
        refine ⟨rfl, fun t ht => ?_⟩
        split_ifs at ht
        cases ht
        exact ⟨hclient, fun h => absurd h hended⟩
      · rw [receive_whole hanswer hwhole, receive_whole hanswer (Socket.recv_ofBytes _ _)]
        refine ⟨rfl, fun t ht => ?_⟩
        cases ht
        exact ⟨rfl, fun _ => hserver⟩

/-- **Where it fails the call raises, and would not have.** -/
theorem step_short (s : Dialogue) (c : Delivered) (hs : s.Inv) (hc : ¬ s.HeaderWhole c) :
    ∃ t t' a b, s.step c = .ok t ∧ s.step c.whole = .ok t' ∧ a ≠ b ∧ t.results = s.results ++ [a] ∧
      t'.results = s.results ++ [b] := by
  unfold HeaderWhole at hc
  cases hcall : c.call with
  | set key obj =>
    rw [hcall] at hc
    exact absurd trivial hc
  | ask r =>
    rw [hcall] at hc
    dsimp only at hc
    push Not at hc
    obtain ⟨header, hser, hshort⟩ := hc
    have hmsg : c.call.msg.serialize = .ok header := by rw [hcall]; exact hser
    obtain ⟨hresults, hsent⟩ := send_spec hs hmsg
    have hstep : ∀ d : Delivered, d.call = c.call → s.step d = (s.send d header).receive r d.down := by
      intro d hd
      rw [step, hd, hmsg, hcall]
    rw [hcall] at hsent
    rcases hsent with ⟨hended, hclient⟩ | ⟨hended, hserver, code, data, hanswer⟩
    · rw [hclient] at hshort
      exact absurd (recv_nil c.down).1 (by rw [List.take_nil] at hshort; exact hshort)
    · obtain ⟨t, ht, htresults⟩ := receive_short hanswer hshort
      rw [hresults] at htresults
      have hwhole : s.step c.whole =
          .ok ({ s.send c header with toClient := [] }.returns (resultOf r code data)) := by
        rw [hstep c.whole rfl, send_whole]
        exact receive_whole hanswer (Socket.recv_ofBytes _ _)
      refine ⟨t, _, .raised, resultOf r code data, (hstep c rfl).trans ht, hwhole,
        (resultOf_ne_raised hanswer).symm, htresults, ?_⟩
      show (s.send c header).results ++ _ = _
      rw [hresults]

/-- What is seen of a run: what the calls came to, and what the server executed. -/
def seen (s : Dialogue) : List CallResult × List Record := (s.results, s.executed)

theorem results_serverLoop (up : Delivery) (n : ℕ) : ∀ s : Dialogue, (serverLoop up n s).results = s.results := by
  induction n with
  | zero => intro s; rfl
  | succ n ih =>
    intro s
    rw [serverLoop]
    cases h : s.serverTurn up with
    | none => rfl
    | some t =>
      dsimp only
      rw [ih t]
      unfold serverTurn at h
      split_ifs at h
      split at h
      · cases h
      · cases h
        rfl
      · split at h <;> cases h <;> rfl

/-- A receive only adds to the results. -/
theorem results_receiveAll (s : Dialogue) (sock : Socket) (n : ℤ) (finish : Option Bytes → CallResult) :
    ∃ t, (s.receiveAll sock n finish = .ok t ∨ s.receiveAll sock n finish = .error t) ∧ s.results <+: t.results := by
  unfold receiveAll
  split_ifs
  · exact ⟨_, .inl rfl, List.prefix_append _ _⟩
  · split
    · exact ⟨_, .inl rfl, List.prefix_append _ _⟩
    · exact ⟨_, .inl rfl, List.prefix_append _ _⟩
  · split
    · exact ⟨_, .inl rfl, List.prefix_append _ _⟩
    · exact ⟨_, .inr rfl, List.prefix_refl _⟩

theorem results_receive (s : Dialogue) (r : Request) (down : Delivery) :
    ∃ t, (s.receive r down = .ok t ∨ s.receive r down = .error t) ∧ s.results <+: t.results := by
  unfold receive
  split_ifs
  · exact ⟨_, .inr rfl, List.prefix_refl _⟩
  · dsimp only
    split
    · exact ⟨_, .inl rfl, List.prefix_append _ _⟩
    · split
      · exact ⟨_, .inl rfl, List.prefix_append _ _⟩
      · split_ifs
        · exact ⟨_, .inl rfl, List.prefix_append _ _⟩
        · exact results_receiveAll _ _ _ _
      · split_ifs
        · exact ⟨_, .inl rfl, List.prefix_append _ _⟩
        · exact results_receiveAll _ _ _ _

/-- Results stay. -/
theorem results_step (s : Dialogue) (c : Delivered) :
    ∃ t, (s.step c = .ok t ∨ s.step c = .error t) ∧ s.results <+: t.results := by
  unfold step
  split
  · exact ⟨_, .inl rfl, List.prefix_append _ _⟩
  · rename_i header _
    have hsent : (s.send c header).results = s.results := results_serverLoop _ _ _
    split
    · refine ⟨_, .inl rfl, ?_⟩
      rw [← hsent]
      exact List.prefix_append _ _
    · rename_i r _
      rw [← hsent]
      exact results_receive _ r c.down

/-- **The calls come to the same, and the server executes the same, as with every `recv` returning all the bytes, exactly
if every `recv` of a header returns all of it.** -/
theorem along_headerWhole_iff (server : LMCacheServer) (calls : List Delivered) :
    Along step HeaderWhole (.new server) calls ↔
      observe seen (calls.foldlM step (.new server)) =
        observe seen ((calls.map Delivered.whole).foldlM step (.new server)) := by
  have hnew : (new server).Inv := ⟨rfl, fun _ => rfl⟩
  exact along_iff_observe_eq Prod.fst results_step step_whole step_short hnew

/-- A lookup on an empty server, whose response arrives in two packets. -/
def lookupInTwo : List Delivered := [{ call := .ask (.contains "k"), up := .whole, down := .cutAt 3 }]

/-- It raises, and would have been answered. -/
theorem header_in_two_raises :
    observe seen (lookupInTwo.foldlM step (.new .new)) ≠
      observe seen ((lookupInTwo.map Delivered.whole).foldlM step (.new .new)) := by
  have hcut : ∃ t, Reaches step (new .new) lookupInTwo t ∧ t.results = [.raised] := by decide +kernel
  have hwhole : ∃ t, Reaches step (new .new) (lookupInTwo.map Delivered.whole) t ∧ t.results = [.present false] := by
    decide +kernel
  obtain ⟨t, ht, hraised⟩ := hcut
  obtain ⟨t', ht', hpresent⟩ := hwhole
  have ht : lookupInTwo.foldlM step (new .new) = .ok t := ht
  have ht' : (lookupInTwo.map Delivered.whole).foldlM step (new .new) = .ok t' := ht'
  rw [ht, ht']
  intro heq
  have hresults : t.results = t'.results := congrArg Prod.fst (Except.ok.inj heq)
  rw [hraised, hpresent] at hresults
  cases hresults

end Dialogue

end FairCache
