import FairCache.Wire.Connector
import FairCache.Wire.Disconnect

/-!
# Requests and their responses on one socket

* `Connection.Matched` : the server executed the commands that were issued, and every call received its own response;
* `Connection.Meets` : no request goes between the header of a set and its object, and every message fits;
* `Connection.Inv` : what is under way; `Connection.inv_step` : every such step keeps it;
* `everyState_matched` : whole runs.
-/

namespace FairCache

open Lib

namespace Connection

/-- The store after a command. -/
def storedPair (d : Dict String Bytes) (r : Record) : Dict String Bytes :=
  if r.1.command = Constants.clientPut then d.set r.1.key r.2 else d

/-- **Requests and responses match**: the server runs and executed issued commands in their order, the store is that of
the sets with their objects on what there was, and each call received the response to its own request. What was sent is executed, and
answered, once the server comes to it. -/
structure Matched (d : Dict String Bytes) (s : Connection) : Prop where
  running : s.ended = none
  executed : s.executed <+: s.issued
  stored : s.server.dataStore.dict = s.executed.foldl storedPair d
  consumed : s.consumed <+: s.responses
  complete : s.worker = none → s.toServer = [] → s.executed = s.issued
  answered : s.main = none → s.consumed = s.responses ∧ s.toClient = []
  turn : s.worker = none → s.toServer ≠ [] → ∃ t, s.serverTurn = .ok t
  response : s.worker = none → s.toServer = [] → s.main ≠ none → ∃ t, s.receive = .ok t

/-- The message and the object of a set, or the message of a request, can be sent as they are; **no request is sent
between the header of a set and its object**, unless that is empty; and a listing can be sent. -/
def Meets (s : Connection) : Step → Prop
  | .setHeader key obj => (⟨Constants.clientPut, key, obj.length⟩ : ClientMetaMessage).Fits
  | .setBody => True
  | .request r => r.msg.Fits ∧ s.worker.getD [] = []
  | .server =>
    match LMCacheServer.format.read s.toServer with
    | some (.ok (m, _, _)) => m.command = Constants.clientList → s.server.listing.length < 2 ^ 31
    | _ => True
  | .receive => True

/-! ## Invariant -/

/-- A command with its body. -/
def record (c : LMCacheServer.Command) : Record := (c.msg, c.body)

/-- The requests among the commands that the server has not read. -/
def asked (rest : List LMCacheServer.Command) : List ClientMetaMessage :=
  (rest.filter fun c => c.msg.command ≠ Constants.clientPut).map Frame.msg

/-- Bytes that are received as the response to the request: a header, and data only where the call receives them. -/
def IsResponse (r : Request) (response : Bytes) : Prop :=
  ∃ (code : ℤ) (data : Bytes), Bytes.IsInt32 code ∧ data.length < 2 ^ 31 ∧
    response = [code, (data.length : ℤ)].flatMap Bytes.packInt ++ data ∧
    ((r.wantsData && code == Constants.serverSuccess) = false → data = [])

/-- Where the call of the main thread is. -/
inductive Serving (s : Connection) (rest : List LMCacheServer.Command) : Prop
  | idle (main : s.main = none) (consumed : s.consumed = s.responses) (toClient : s.toClient = []) (none : asked rest = [])
  | queued (r : Request) (main : s.main = some (.header r)) (consumed : s.consumed = s.responses) (toClient : s.toClient = [])
      (one : asked rest = [r.msg])
  | answered (r : Request) (main : s.main = some (.header r)) (consumed : s.responses = s.consumed ++ [(r.msg, s.toClient)])
      (response : IsResponse r s.toClient) (none : asked rest = [])
  | receiving (r : Request) (length : ℤ) (received : Bytes) (main : s.main = some (.data r length received))
      (consumed : s.responses = s.consumed ++ [(r.msg, received ++ s.toClient)]) (length_eq : length = s.toClient.length)
      (none : asked rest = [])

/-- **What is under way**: `rest` is what was issued and not yet executed. -/
structure Inv (d : Dict String Bytes) (s : Connection) (rest : List LMCacheServer.Command) : Prop where
  running : s.ended = none
  issued : s.issued = s.executed ++ rest.map record
  toServer : s.toServer ++ s.worker.getD [] = Frame.stream rest
  fits : ∀ c ∈ rest, c.msg.Fits
  unlocked : s.server.Unlocked
  stored : s.server.dataStore.dict = s.executed.foldl storedPair d
  small : ∀ k v, s.server.dataStore.dict.lookup k = some v → v.length < 2 ^ 31
  serving : s.Serving rest

theorem Inv.new {server : LMCacheServer} (hserver : server.Unlocked)
    (hsmall : ∀ k v, server.dataStore.dict.lookup k = some v → v.length < 2 ^ 31) :
    Inv server.dataStore.dict (.new server) [] where
  running := rfl
  issued := rfl
  toServer := rfl
  fits := fun _ h => absurd h List.not_mem_nil
  unlocked := hserver
  stored := rfl
  small := hsmall
  serving := .idle rfl rfl rfl rfl

/-! ## Steps -/

section Steps
variable {d : Dict String Bytes} {s t : Connection} {rest : List LMCacheServer.Command}

/-- The call of the main thread depends on nothing else. -/
theorem Serving.congr {rest' : List LMCacheServer.Command} (h : s.Serving rest) (hmain : t.main = s.main)
    (hconsumed : t.consumed = s.consumed) (hresponses : t.responses = s.responses) (hclient : t.toClient = s.toClient)
    (hasked : asked rest' = asked rest) : t.Serving rest' := by
  rcases h with ⟨h₁, h₂, h₃, h₄⟩ | ⟨r, h₁, h₂, h₃, h₄⟩ | ⟨r, h₁, h₂, h₃, h₄⟩ | ⟨r, n, d, h₁, h₂, h₃, h₄⟩
  all_goals rw [← hasked] at h₄
  all_goals rw [← hmain] at h₁
  all_goals rw [← hresponses, ← hconsumed] at h₂
  all_goals rw [← hclient] at h₃
  · exact .idle h₁ h₂ h₃ h₄
  · exact .queued r h₁ h₂ h₃ h₄
  · rw [← hclient] at h₂
    exact .answered r h₁ h₂ h₃ h₄
  · rw [← hclient] at h₂
    exact .receiving r n d h₁ h₂ h₃ h₄

theorem command_ne_put (r : Request) : r.msg.command ≠ Constants.clientPut := by
  cases r with
  | get _ => exact (by decide : Constants.clientGet ≠ Constants.clientPut)
  | contains _ => exact (by decide : Constants.clientExist ≠ Constants.clientPut)
  | list => exact (by decide : Constants.clientList ≠ Constants.clientPut)

/-- A set adds a command that asks for nothing. -/
theorem asked_append_put {c : LMCacheServer.Command} (h : c.msg.command = Constants.clientPut) :
    asked (rest ++ [c]) = asked rest := by
  simp [asked, h]

/-- A request is asked after the others. -/
theorem asked_append_request {c : LMCacheServer.Command} (h : c.msg.command ≠ Constants.clientPut) :
    asked (rest ++ [c]) = asked rest ++ [c.msg] := by
  simp [asked, h]

theorem asked_cons (c : LMCacheServer.Command) (rest : List LMCacheServer.Command) :
    asked (c :: rest) = if c.msg.command = Constants.clientPut then asked rest else c.msg :: asked rest := by
  by_cases h : c.msg.command = Constants.clientPut
  · simp [asked, h]
  · simp [asked, h]

/-- The command of a set. -/
def putOf (key : String) (obj : Bytes) (h : (⟨Constants.clientPut, key, obj.length⟩ : ClientMetaMessage).Fits) :
    LMCacheServer.Command := .ofMessage ⟨Constants.clientPut, key, obj.length⟩ h obj rfl

/-- The command of a request. -/
def commandOf (r : Request) (h : r.msg.Fits) : LMCacheServer.Command :=
  .ofMessage r.msg h [] (if_neg (command_ne_put r)).symm

/-- The header of a set starts a command. -/
theorem inv_setHeader {key : String} {obj : Bytes} (hs : s.Inv d rest)
    (hfits : (⟨Constants.clientPut, key, obj.length⟩ : ClientMetaMessage).Fits)
    (h : s.step (.setHeader key obj) = .ok t) : t.Inv d (rest ++ [putOf key obj hfits]) := by
  rw [step] at h
  split_ifs at h with hworker
  rw [Bool.not_eq_true, Option.isSome_eq_false_iff, Option.isNone_iff_eq_none] at hworker
  dsimp only at h
  rw [ClientMetaMessage.serialize_of_fits hfits] at h
  cases h
  have hsent := hs.toServer
  rw [hworker, Option.getD_none, List.append_nil] at hsent
  refine ⟨hs.running, ?_, ?_, ?_, hs.unlocked, hs.stored, hs.small, ?_⟩
  · show s.issued ++ [_] = _
    rw [hs.issued, List.map_append, List.append_assoc]
    rfl
  · show (s.toServer ++ _) ++ obj = _
    rw [hsent, Frame.stream_append, Frame.stream_cons, Frame.stream_nil, List.append_nil, List.append_assoc]
    rfl
  · intro c hc
    rcases List.mem_append.mp hc with hc | hc
    · exact hs.fits c hc
    · rw [List.mem_singleton.mp hc]
      exact hfits
  · exact hs.serving.congr rfl rfl rfl rfl (asked_append_put rfl)

/-- Its object ends it. -/
theorem inv_setBody (hs : s.Inv d rest) (h : s.step .setBody = .ok t) : t.Inv d rest := by
  rw [step] at h
  split at h
  · cases h
  · rename_i obj hworker
    cases h
    have hsent := hs.toServer
    rw [hworker, Option.getD_some] at hsent
    refine ⟨hs.running, hs.issued, ?_, hs.fits, hs.unlocked, hs.stored, hs.small, ?_⟩
    · show (s.toServer ++ obj) ++ [] = _
      rw [List.append_nil, hsent]
    · exact hs.serving.congr rfl rfl rfl rfl rfl

/-- A request that finds no set in between goes after the other commands. -/
theorem inv_request {r : Request} (hs : s.Inv d rest) (hfits : r.msg.Fits) (hworker : s.worker.getD [] = [])
    (h : s.step (.request r) = .ok t) : t.Inv d (rest ++ [commandOf r hfits]) := by
  rw [step] at h
  split_ifs at h with hmain
  rw [Bool.not_eq_true, Option.isSome_eq_false_iff, Option.isNone_iff_eq_none] at hmain
  dsimp only at h
  rw [ClientMetaMessage.serialize_of_fits hfits] at h
  cases h
  have hsent := hs.toServer
  rw [hworker, List.append_nil] at hsent
  refine ⟨hs.running, ?_, ?_, ?_, hs.unlocked, hs.stored, hs.small, ?_⟩
  · show s.issued ++ [_] = _
    rw [hs.issued, List.map_append, List.append_assoc]
    rfl
  · show (s.toServer ++ _) ++ s.worker.getD [] = _
    rw [hworker, List.append_nil, hsent, Frame.stream_append, Frame.stream_cons, Frame.stream_nil, List.append_nil]
    show _ = _ ++ (r.msg.packed ++ [])
    rw [List.append_nil]
  · intro c hc
    rcases List.mem_append.mp hc with hc | hc
    · exact hs.fits c hc
    · rw [List.mem_singleton.mp hc]
      exact hfits
  · rcases hs.serving with ⟨h₁, h₂, h₃, h₄⟩ | ⟨r', h₁, -, -, -⟩ | ⟨r', h₁, -, -, -⟩ | ⟨r', n, d, h₁, -, -, -⟩
    · refine .queued r rfl h₂ h₃ ?_
      rw [asked_append_request (command_ne_put r), h₄]
      rfl
    all_goals
      rw [hmain] at h₁
      cases h₁

/-! ## The server -/

/-- A response that can be packed is what the server sends. -/
theorem sent_answer {s s' : LMCacheServer} {code : ℤ} {data : Bytes} (h : s.answer code data = .ok s') :
    s'.sent = s.sent ++ ([code, (data.length : ℤ)].flatMap Bytes.packInt ++ data) ∧
      Bytes.IsInt32 code ∧ data.length < 2 ^ 31 := by
  unfold LMCacheServer.answer ServerMetaMessage.serialize packInts at h
  dsimp only at h
  split_ifs at h with hfit
  cases h
  rw [List.forall_mem_cons, List.forall_mem_singleton] at hfit
  refine ⟨List.append_assoc _ _ _, hfit.1, ?_⟩
  have hlength := hfit.2
  unfold Bytes.IsInt32 at hlength
  omega

/-- A set is answered with nothing. -/
theorem sent_of_put {s s' : LMCacheServer} {c : LMCacheServer.Command} (hc : c.msg.command = Constants.clientPut)
    (h : c.exec LMCacheServer.serve s = .ok s') : s'.sent = s.sent := by
  unfold Frame.exec LMCacheServer.serve at h
  rw [if_pos hc] at h
  split at h
  · cases h
  · cases h
    rfl

/-- **A request is answered with one code and its data**, which is there only where the request receives it. -/
theorem answer_of_serve {s s' : LMCacheServer} {m : ClientMetaMessage} {body : Option Bytes} {r : Request}
    (hm : m.command = r.msg.command) (h : s.serve m body = .ok s') :
    ∃ code data, s.answer code data = .ok s' ∧ ((r.wantsData && code == Constants.serverSuccess) = false → data = []) ∧
      (r = .list → data = s.listing) := by
  unfold LMCacheServer.serve at h
  rw [hm, if_neg (command_ne_put r)] at h
  cases r with
  | get key =>
    rw [if_pos (show (Request.get key).msg.command = Constants.clientGet from rfl)] at h
    split at h
    · cases h
    · exact ⟨_, _, h, fun h => Bool.noConfusion h, fun h => by cases h⟩
    · exact ⟨_, _, h, fun _ => rfl, fun h => by cases h⟩
  | contains key =>
    have hget : ¬ (Request.contains key).msg.command = Constants.clientGet :=
      (by decide : ¬ Constants.clientExist = Constants.clientGet)
    rw [if_neg hget, if_pos (show (Request.contains key).msg.command = Constants.clientExist from rfl)] at h
    exact ⟨_, _, h, fun _ => rfl, fun h => by cases h⟩
  | list =>
    have hget : ¬ Request.list.msg.command = Constants.clientGet :=
      (by decide : ¬ Constants.clientList = Constants.clientGet)
    have hexist : ¬ Request.list.msg.command = Constants.clientExist :=
      (by decide : ¬ Constants.clientList = Constants.clientExist)
    rw [if_neg hget, if_neg hexist, if_pos (show Request.list.msg.command = Constants.clientList from rfl)] at h
    exact ⟨_, _, h, fun h => absurd h (by decide), fun _ => rfl⟩

/-- **A request is answered with one response of its kind.** -/
theorem isResponse_of_exec {s s' : LMCacheServer} {c : LMCacheServer.Command} {r : Request} (hc : c.msg = r.msg)
    (h : c.exec LMCacheServer.serve s = .ok s') : ∃ response, s'.sent = s.sent ++ response ∧ IsResponse r response := by
  obtain ⟨code, data, hanswer, hdata, -⟩ := answer_of_serve (congrArg ClientMetaMessage.command hc) h
  obtain ⟨hsent, hcode, hlength⟩ := sent_answer hanswer
  exact ⟨_, hsent, code, data, hcode, hlength, rfl, hdata⟩

/-- An object that fits is small. -/
theorem length_body_lt {c : LMCacheServer.Command} (h : c.msg.Fits) : c.body.length < 2 ^ 31 := by
  have hlength := c.length_body
  have hint := h.length
  unfold Bytes.IsInt32 at hint
  show c.body.length < _
  rw [hlength]
  show LMCacheServer.bodyLength c.msg < _
  unfold LMCacheServer.bodyLength
  split_ifs
  · omega
  · decide

/-- The store keeps small values. -/
theorem small_stored {d : Dict String Bytes} (hd : ∀ k v, d.lookup k = some v → v.length < 2 ^ 31)
    {c : LMCacheServer.Command} (h : c.msg.Fits) {k : String} {v : Bytes}
    (hv : (LMCacheServer.stored d c).lookup k = some v) : v.length < 2 ^ 31 := by
  unfold LMCacheServer.stored at hv
  split_ifs at hv
  · rw [Dict.lookup_set] at hv
    split_ifs at hv
    · cases hv
      exact length_body_lt h
    · exact hd k v hv
  · exact hd k v hv

/-- A turn that reads a command. -/
theorem serverTurn_of_read {c : LMCacheServer.Command} {b : Bytes} {server : LMCacheServer} (hrunning : s.ended = none)
    (hread : LMCacheServer.format.read s.toServer = some (.ok (c.msg, c.body, b)))
    (hexec : c.exec LMCacheServer.serve s.server = .ok server) :
    s.serverTurn = .ok
      { s with
        server := server
        toServer := b
        toClient := s.toClient ++ server.sent.drop s.server.sent.length
        executed := s.executed ++ [record c]
        responses := if c.msg.command = Constants.clientPut then s.responses
          else s.responses ++ [(c.msg, server.sent.drop s.server.sent.length)] } := by
  have hserve : s.server.serve c.msg (some c.body) = .ok server := hexec
  unfold serverTurn
  rw [hrunning, hread]
  dsimp only [Option.isSome_none]
  rw [if_neg Bool.false_ne_true, hserve]
  rfl

/-- **The server executes the first of the commands that are under way.** -/
theorem inv_server (hs : s.Inv d rest) (hm : s.Meets .server) (h : s.step .server = .ok t) :
    ∃ c rest', rest = c :: rest' ∧ t.Inv d rest' := by
  have hturn : s.serverTurn = .ok t := h
  cases hread : LMCacheServer.format.read s.toServer with
  | none =>
    unfold serverTurn at hturn
    rw [hread, hs.running] at hturn
    cases hturn
  | some x =>
    obtain ⟨c, rest', b, rfl, rfl, hrest⟩ := read_of_append hs.toServer hread
    have hanswerable : s.server.Answerable c := by
      refine ⟨fun _ data hdata => hs.small _ data hdata, fun hlist => ?_⟩
      unfold Meets at hm
      rw [hread] at hm
      exact hm hlist
    obtain ⟨server, hexec⟩ := (LMCacheServer.exec_ok_iff hs.unlocked c).mpr hanswerable
    obtain ⟨hunlocked, hstored⟩ := LMCacheServer.exec_stored hs.unlocked hexec
    have hfits := hs.fits c List.mem_cons_self
    rw [serverTurn_of_read hs.running hread hexec] at hturn
    cases hturn
    refine ⟨c, rest', rfl, hs.running, ?_, hrest, fun c' hc' => hs.fits c' (List.mem_cons_of_mem _ hc'), hunlocked, ?_, ?_, ?_⟩
    · show s.issued = (s.executed ++ [record c]) ++ _
      rw [hs.issued, List.append_assoc]
      rfl
    · show server.dataStore.dict = (s.executed ++ [record c]).foldl storedPair d
      rw [hstored, hs.stored, List.foldl_append]
      rfl
    · intro k v hv
      rw [show server.dataStore.dict = _ from hstored] at hv
      exact small_stored hs.small hfits hv
    · by_cases hput : c.msg.command = Constants.clientPut
      · have hsent : server.sent.drop s.server.sent.length = [] := by
          rw [sent_of_put hput hexec, List.drop_length]
        refine hs.serving.congr rfl rfl (if_pos hput) ?_ ?_
        · show s.toClient ++ _ = _
          rw [hsent, List.append_nil]
        · rw [asked_cons, if_pos hput]
      · have hasked := asked_cons c rest'
        rw [if_neg hput] at hasked
        rcases hs.serving with ⟨-, -, -, h₄⟩ | ⟨r, h₁, h₂, h₃, h₄⟩ | ⟨r, -, -, -, h₄⟩ | ⟨r, n, d, -, -, -, h₄⟩
        · rw [hasked] at h₄
          cases h₄
        · rw [hasked] at h₄
          obtain ⟨hmsg, hnone⟩ := List.cons.inj h₄
          obtain ⟨response, hsent, hresponse⟩ := isResponse_of_exec hmsg hexec
          have hdrop : server.sent.drop s.server.sent.length = response := by rw [hsent, List.drop_left]
          have hclient : s.toClient ++ response = response := by rw [h₃, List.nil_append]
          rw [if_neg hput, hdrop, hclient, hmsg]
          refine .answered r h₁ ?_ hresponse hnone
          show s.responses ++ _ = s.consumed ++ _
          rw [h₂]
        · rw [hasked] at h₄
          cases h₄
        · rw [hasked] at h₄
          cases h₄

/-! ## Receives -/

/-- **The header of a response is received**: either that is all, or the data is to follow. -/
theorem receive_header {r : Request} (hmain : s.main = some (.header r)) (hresponse : IsResponse r s.toClient) :
    s.receive = .ok ({ s with toClient := [] }.returns r s.toClient) ∨
      ∃ header data : Bytes, s.toClient = header ++ data ∧
        s.receive = .ok { s with toClient := data, main := some (.data r data.length header) } := by
  obtain ⟨code, data, hcode, hlength, heq, hnil⟩ := hresponse
  have hints : ∀ n ∈ [code, (data.length : ℤ)], Bytes.IsInt32 n := by
    rw [List.forall_mem_cons, List.forall_mem_singleton]
    unfold Bytes.IsInt32 at *
    omega
  have hheader : ([code, (data.length : ℤ)].flatMap Bytes.packInt).length = ServerMetaMessage.packlength :=
    length_packedInts _
  have hread := ServerMetaMessage.deserialize_serialize (m := ⟨code, data.length⟩) hcode (hints _ (by simp))
  rw [ServerMetaMessage.serialize, packInts_of_fit hints] at hread
  generalize [code, (data.length : ℤ)].flatMap Bytes.packInt = header at heq hheader hread
  have hlong : ¬ (header ++ data).length < ServerMetaMessage.packlength := by
    rw [List.length_append]
    omega
  unfold receive
  rw [hmain]
  dsimp only
  rw [heq, if_neg hlong, List.take_left' hheader, List.drop_left' hheader,
    show ServerMetaMessage.deserialize header = .ok ⟨code, data.length⟩ from hread]
  dsimp only
  split_ifs with hdata
  · exact .inr ⟨header, data, rfl, rfl⟩
  · rw [Bool.not_eq_true] at hdata
    rw [hnil hdata, List.append_nil]
    exact .inl rfl

/-- **The data of a response is received.** -/
theorem receive_data {r : Request} {received : Bytes} (hmain : s.main = some (.data r s.toClient.length received)) :
    s.receive = .ok ({ s with toClient := [] }.returns r (received ++ s.toClient)) := by
  unfold receive
  rw [hmain]
  dsimp only
  rw [Int.toNat_natCast, if_neg (Nat.lt_irrefl _), List.take_length, List.drop_length]

/-- The receives of the main thread. -/
theorem inv_receive (hs : s.Inv d rest) (h : s.step .receive = .ok t) : t.Inv d rest := by
  have hreceive : s.receive = .ok t := h
  rcases hs.serving with ⟨h₁, -, -, -⟩ | ⟨r, h₁, -, h₃, -⟩ | ⟨r, h₁, h₂, h₃, h₄⟩ | ⟨r, n, d, h₁, h₂, rfl, h₄⟩
  · rw [receive, h₁] at hreceive
    cases hreceive
  · rw [receive, h₁, h₃] at hreceive
    cases hreceive
  · rcases receive_header h₁ h₃ with heq | ⟨header, data, hclient, heq⟩
    · rw [heq] at hreceive
      cases hreceive
      exact ⟨hs.running, hs.issued, hs.toServer, hs.fits, hs.unlocked, hs.stored, hs.small, .idle rfl h₂.symm rfl h₄⟩
    · rw [heq] at hreceive
      cases hreceive
      rw [hclient] at h₂
      exact ⟨hs.running, hs.issued, hs.toServer, hs.fits, hs.unlocked, hs.stored, hs.small,
        .receiving r _ header rfl h₂ rfl h₄⟩
  · rw [receive_data h₁] at hreceive
    cases hreceive
    exact ⟨hs.running, hs.issued, hs.toServer, hs.fits, hs.unlocked, hs.stored, hs.small, .idle rfl h₂.symm rfl h₄⟩

/-- **Every step that meets the condition keeps the invariant.** -/
theorem inv_step (s : Connection) (op : Step) (t : Connection) (hs : ∃ rest, s.Inv d rest) (hm : s.Meets op)
    (h : s.step op = .ok t) : ∃ rest, t.Inv d rest := by
  obtain ⟨rest, hs⟩ := hs
  cases op with
  | setHeader key obj => exact ⟨_, inv_setHeader hs hm h⟩
  | setBody => exact ⟨_, inv_setBody hs h⟩
  | request r => exact ⟨_, inv_request hs hm.1 hm.2 h⟩
  | server =>
    obtain ⟨-, rest', -, ht⟩ := inv_server hs hm h
    exact ⟨rest', ht⟩
  | receive => exact ⟨_, inv_receive hs h⟩

/-! ## What the invariant says -/

/-- **What is under way is matched.** -/
theorem matched_of_inv (hs : s.Inv d rest) : s.Matched d where
  running := hs.running
  executed := ⟨_, hs.issued.symm⟩
  stored := hs.stored
  consumed := by
    rcases hs.serving with ⟨-, h₂, -, -⟩ | ⟨r, -, h₂, -, -⟩ | ⟨r, -, h₂, -, -⟩ | ⟨r, n, d, -, h₂, -, -⟩
    · exact h₂ ▸ List.prefix_refl _
    · exact h₂ ▸ List.prefix_refl _
    · exact ⟨_, h₂.symm⟩
    · exact ⟨_, h₂.symm⟩
  complete hworker hserver := by
    have hsent := hs.toServer
    rw [hworker, hserver] at hsent
    have hissued := hs.issued
    rw [Frame.eq_nil_of_stream_eq_nil hsent.symm, List.map_nil, List.append_nil] at hissued
    exact hissued.symm
  answered hmain := by
    rcases hs.serving with ⟨-, h₂, h₃, -⟩ | ⟨r, h₁, -, -, -⟩ | ⟨r, h₁, -, -, -⟩ | ⟨r, n, d, h₁, -, -, -⟩
    · exact ⟨h₂, h₃⟩
    all_goals
      rw [hmain] at h₁
      cases h₁
  turn hworker hserver := by
    have hsent := hs.toServer
    rw [hworker, Option.getD_none, List.append_nil] at hsent
    cases rest with
    | nil => exact absurd hsent hserver
    | cons c rest =>
      rw [Frame.stream_cons] at hsent
      unfold serverTurn
      rw [hs.running, hsent, read_frame]
      dsimp only [Option.isSome_none]
      rw [if_neg Bool.false_ne_true]
      split
      · exact ⟨_, rfl⟩
      · exact ⟨_, rfl⟩
  response hworker hserver hmain := by
    have hsent := hs.toServer
    rw [hworker, hserver] at hsent
    have hnil := Frame.eq_nil_of_stream_eq_nil hsent.symm
    rcases hs.serving with ⟨h₁, -, -, -⟩ | ⟨r, -, -, -, h₄⟩ | ⟨r, h₁, -, h₃, -⟩ | ⟨r, n, d, h₁, -, rfl, -⟩
    · exact absurd h₁ hmain
    · rw [hnil] at h₄
      cases h₄
    · rcases receive_header h₁ h₃ with heq | ⟨header, data, -, heq⟩
      · exact ⟨_, heq⟩
      · exact ⟨_, heq⟩
    · exact ⟨_, receive_data h₁⟩

end Steps

instance (s : Connection) (op : Step) : Decidable (s.Meets op) :=
  match op with
  | .setHeader _ _ => inferInstanceAs (Decidable (ClientMetaMessage.Fits _))
  | .setBody => .isTrue trivial
  | .request r => inferInstanceAs (Decidable (r.msg.Fits ∧ s.worker.getD [] = []))
  | .server =>
    match h : LMCacheServer.format.read s.toServer with
    | some (.ok (m, _, _)) =>
      decidable_of_iff (m.command = Constants.clientList → s.server.listing.length < 2 ^ 31) (by unfold Meets; rw [h])
    | some (.error _) => .isTrue (by unfold Meets; rw [h]; trivial)
    | none => .isTrue (by unfold Meets; rw [h]; trivial)
  | .receive => .isTrue trivial

end Connection

/-- **In every run in which no request goes between the header of a set and its object, requests and responses
match.** -/
theorem everyState_matched {server : LMCacheServer} (hserver : server.Unlocked)
    (hsmall : ∀ k v, server.dataStore.dict.lookup k = some v → v.length < 2 ^ 31) {sched : List Connection.Step}
    {t : Connection} (hmeets : Along Connection.step Connection.Meets (.new server) sched)
    (hrun : Reaches Connection.step (.new server) sched t) :
    EveryState Connection.step (Connection.Matched server.dataStore.dict) (.new server) sched := by
  have hnew : ∃ rest, (Connection.new server).Inv server.dataStore.dict rest := ⟨[], .new hserver hsmall⟩
  have hinv := everyState_of_along Connection.inv_step hnew hmeets hrun
  exact hinv.imp fun s ⟨rest, hs⟩ => Connection.matched_of_inv hs

/-- A set with two bytes, then a request of the same key that waits for the server. -/
def setThenGet : List Connection.Step :=
  [.setHeader "k" [7, 9], .setBody, .request (.get "k"), .server, .server, .receive, .receive]

/-- The same set, with a lookup between its header and its object. -/
def lookupWithinSet : List Connection.Step := [.setHeader "k" [7, 9], .request (.contains "k"), .setBody, .server]

/-- The get receives what was set. -/
theorem everyState_matched_setThenGet :
    EveryState Connection.step (Connection.Matched ∅) (.new .new) setThenGet ∧
      ∃ t, Reaches Connection.step (.new .new) setThenGet t ∧
        t.consumed = [((Request.get "k").msg, [200, 2].flatMap Bytes.packInt ++ [7, 9])] := by
  have hmeets : Along Connection.step Connection.Meets (.new .new) setThenGet := by decide +kernel
  have hrun : ∃ t, Reaches Connection.step (.new .new) setThenGet t ∧
      t.consumed = [((Request.get "k").msg, [200, 2].flatMap Bytes.packInt ++ [7, 9])] := by decide +kernel
  obtain ⟨t, ht, hconsumed⟩ := hrun
  have hnone : ∀ k v, LMCacheServer.new.dataStore.dict.lookup k = some v → v.length < 2 ^ 31 := fun k v h => by cases h
  have hunlocked : LMCacheServer.new.Unlocked := rfl
  exact ⟨everyState_matched hunlocked hnone hmeets ht, t, ht, hconsumed⟩

/-- The server takes the header of the lookup for the object of the set. -/
theorem lookup_within_set_stored :
    ∃ t, Reaches Connection.step (.new .new) lookupWithinSet t ∧
      t.executed = [(⟨Constants.clientPut, "k", 2⟩, [3, 0])] ∧ ¬ t.Matched ∅ := by
  have hrun : ∃ t, Reaches Connection.step (.new .new) lookupWithinSet t ∧
      t.executed = [(⟨Constants.clientPut, "k", 2⟩, [3, 0])] ∧ ¬ t.executed <+: t.issued := by decide +kernel
  obtain ⟨t, ht, hexecuted, hnot⟩ := hrun
  exact ⟨t, ht, hexecuted, fun h => hnot h.executed⟩

end FairCache
