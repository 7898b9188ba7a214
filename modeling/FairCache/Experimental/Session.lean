import FairCache.Experimental.Matching

/-!
# Calls one after the other on the experimental connector

A call is over before the next one starts; the server answers every request with a header that can be read and the data
that it announces, and the allocator may have no buffer for the data.

* `Reply`, `RemoteServer` : what a correct server sends; `LMCacheServer.remote` : the server of the repository is one;
* `Session`, `Session.step` : a connector with such a server, and one call;
* `Session.Usable` : what is unread is at a message boundary, and every call received its own response;
* `Session.everyState_usable` : the runs in which it holds after each call.
-/

namespace FairCache.Experimental

open Lib

/-- A response: a header, and the data that it announces. -/
structure Reply where
  header : Bytes
  info : ServerMetaMessage
  data : Bytes
  read_header : ServerMetaMessage.deserialize header = .ok info
  length_data : data.length = info.obj.length.toNat

namespace Reply

/-- What is sent. -/
def response (a : Reply) : Bytes := a.header ++ a.data

theorem length_header (a : Reply) : a.header.length = ServerMetaMessage.packlength := by
  have h := a.read_header
  unfold ServerMetaMessage.deserialize at h
  split_ifs at h with hlength
  exact hlength

/-- What the call returns that receives this, with a buffer if `buffered`. -/
def outcome (a : Reply) (buffered : Bool) : Request → Outcome
  | .exist _ => .present (a.info.code == Constants.serverSuccess)
  | .get _ =>
    if a.info.code = Constants.serverSuccess ∧ buffered = true then .value a.info.obj a.data else .absent

end Reply

/-- A correct server: data comes with a `get` that succeeds. -/
structure RemoteServer (S : Type) where
  reply : S → Request → Reply
  /-- The state after a request. -/
  asked : S → Request → S
  /-- The state after a `put`. -/
  stored : S → CacheEngineKey → ObjMeta → Bytes → S
  data_exist : ∀ s key, (reply s (.exist key)).data = []
  data_absent : ∀ s key, (reply s (.get key)).info.code ≠ Constants.serverSuccess → (reply s (.get key)).data = []

/-- A request that is over: the server's reply, whether there was a buffer, what was received and what was returned. -/
structure Returned where
  request : Request
  reply : Reply
  buffered : Bool
  received : Bytes
  outcome : Outcome

/-- It received its own response, and returned what that says. -/
def Returned.Own (f : Returned) : Prop :=
  f.received = f.reply.response ∧ f.outcome = f.reply.outcome f.buffered f.request

/-- A connector and its server. -/
structure Session (S : Type) where
  server : S
  /-- The server's bytes that were not received. -/
  unread : Bytes
  /-- What the server sent, response by response. -/
  responses : List Bytes
  finished : List Returned

namespace Session

variable {S : Type}

/-- A fresh connection. -/
def new (server : S) : Session S := { server := server, unread := [], responses := [], finished := [] }

/-- A call: `arrived` bytes are there at the `recv` of the header, and `buffer` is the length of what the allocator
returns. -/
inductive Call
  | exist (key : CacheEngineKey) (arrived : ℕ)
  | get (key : CacheEngineKey) (arrived : ℕ) (buffer : Option ℕ)
  | put (key : CacheEngineKey) (obj : ObjMeta) (kvBytes : Bytes)

/-- The server executes the request. -/
def request (R : RemoteServer S) (s : Session S) (r : Request) : Session S :=
  { s with
    server := R.asked s.server r
    unread := s.unread ++ (R.reply s.server r).response
    responses := s.responses ++ [(R.reply s.server r).response] }

/-- `recv(packlength)`, which returns what is there of it. -/
def recvHeader (s : Session S) (arrived : ℕ) : Except Unit (Bytes × Session S) :=
  let n := min arrived ServerMetaMessage.packlength
  if n = 0 ∨ s.unread.length < n then .error () else .ok (s.unread.take n, { s with unread := s.unread.drop n })

/-- The call returns. -/
def finish (s : Session S) (f : Returned) : Session S := { s with finished := s.finished ++ [f] }

/-- `exists`. A message that cannot be packed raises before anything is sent. -/
def exist (R : RemoteServer S) (s : Session S) (key : CacheEngineKey) (arrived : ℕ) : Except Unit (Session S) :=
  let r := Request.exist key
  let a := R.reply s.server r
  match r.msg.serialize with
  | .error _ => .ok s
  | .ok _ => do
    let (response, s) ← (s.request R r).recvHeader arrived
    match ServerMetaMessage.deserialize response with
    | .error _ => pure (s.finish ⟨r, a, false, response, .raised⟩)
    | .ok m => pure (s.finish ⟨r, a, false, response, .present (m.code == Constants.serverSuccess)⟩)

/-- `receive_all` : how the call ends, and what it received. It blocks while bytes are missing; a buffer that is too
small raises in `recv_into`. -/
def receiveAll (s : Session S) (m : ServerMetaMessage) : Option ℕ → Except Unit (Outcome × Bytes × Session S)
  | none => .ok (.absent, [], s)
  | some size =>
    let n := m.obj.length.toNat
    if size < n then .ok (.raised, [], s)
    else if s.unread.length < n then .error ()
    else .ok (.value m.obj (s.unread.take n), s.unread.take n, { s with unread := s.unread.drop n })

/-- `get`. -/
def get (R : RemoteServer S) (s : Session S) (key : CacheEngineKey) (arrived : ℕ) (buffer : Option ℕ) :
    Except Unit (Session S) :=
  let r := Request.get key
  let a := R.reply s.server r
  match r.msg.serialize with
  | .error _ => .ok s
  | .ok _ => do
    let (data, s) ← (s.request R r).recvHeader arrived
    match ServerMetaMessage.deserialize data with
    | .error _ => pure (s.finish ⟨r, a, buffer.isSome, data, .raised⟩)
    | .ok m =>
      if m.code ≠ Constants.serverSuccess then pure (s.finish ⟨r, a, buffer.isSome, data, .absent⟩)
      else do
        let (outcome, payload, s) ← s.receiveAll m buffer
        pure (s.finish ⟨r, a, buffer.isSome, data ++ payload, outcome⟩)

/-- `put`, which has no response. -/
def put (R : RemoteServer S) (s : Session S) (key : CacheEngineKey) (obj : ObjMeta) (kvBytes : Bytes) : Session S :=
  match (putMsg key obj kvBytes).serialize with
  | .error _ => s
  | .ok _ => { s with server := R.stored s.server key { obj with length := kvBytes.length } kvBytes }

/-- One call, if it ends. -/
def step (R : RemoteServer S) (s : Session S) : Call → Except Unit (Session S)
  | .exist key arrived => s.exist R key arrived
  | .get key arrived buffer => s.get R key arrived buffer
  | .put key obj kvBytes => .ok (s.put R key obj kvBytes)

/-! ## Message boundaries -/

/-- What is unread is whole responses. -/
def AtBoundary (s : Session S) : Prop := ∃ k, s.unread = (s.responses.drop k).flatten

/-- **The connection is usable**: what is unread is at a message boundary, and every call that is over received its own
response. -/
structure Usable (s : Session S) : Prop where
  boundary : s.AtBoundary
  own : ∀ f ∈ s.finished, f.Own

/-- The header arrives at once, and data finds a buffer. -/
def Covers (R : RemoteServer S) (s : Session S) : Call → Prop
  | .exist key arrived => (∃ b, (Request.exist key).msg.serialize = .ok b) → ServerMetaMessage.packlength ≤ arrived
  | .get key arrived buffer =>
    (∃ b, (Request.get key).msg.serialize = .ok b) →
      ServerMetaMessage.packlength ≤ arrived ∧
        ((R.reply s.server (.get key)).data ≠ [] →
          ∃ size, buffer = some size ∧ (R.reply s.server (.get key)).data.length ≤ size)
  | .put _ _ _ => True

/-- **Between the calls nothing is unread.** -/
structure Inv (s : Session S) : Prop where
  unread : s.unread = []
  own : ∀ f ∈ s.finished, f.Own

theorem Inv.usable {s : Session S} (h : s.Inv) : s.Usable where
  boundary := ⟨s.responses.length, by rw [List.drop_length, h.unread]; rfl⟩
  own := h.own

/-- A part of the last response is no boundary. -/
theorem not_atBoundary {s : Session S} (responses : List Bytes) (last : Bytes) (h : s.responses = responses ++ [last])
    (hpos : 0 < s.unread.length) (hlt : s.unread.length < last.length) : ¬ s.AtBoundary := by
  rintro ⟨k, hk⟩
  rw [h] at hk
  rcases Nat.lt_or_ge responses.length k with hlong | hshort
  · have hnil : (responses ++ [last]).drop k = [] := by
      apply List.drop_of_length_le
      rw [List.length_append, List.length_singleton]
      omega
    rw [hnil] at hk
    rw [hk] at hpos
    exact absurd hpos (Nat.lt_irrefl 0)
  · rw [List.drop_append_of_le_length hshort, List.flatten_append] at hk
    have hlen := congrArg List.length hk
    rw [List.length_append, List.flatten_singleton] at hlen
    omega

section Steps
variable {R : RemoteServer S} {s t : Session S} {r : Request} {arrived : ℕ}

/-- A header that arrives whole is that of the reply. -/
theorem recvHeader_whole (hs : s.Inv) (h : ServerMetaMessage.packlength ≤ arrived) :
    (s.request R r).recvHeader arrived =
      .ok ((R.reply s.server r).header, { s.request R r with unread := (R.reply s.server r).data }) := by
  have hheader := (R.reply s.server r).length_header
  have hunread : (s.request R r).unread = (R.reply s.server r).header ++ (R.reply s.server r).data := by
    rw [request, hs.unread, List.nil_append]
    rfl
  have hpos : 0 < ServerMetaMessage.packlength := by decide
  unfold recvHeader
  rw [hunread, Nat.min_eq_right h]
  dsimp only
  rw [if_neg (by rw [List.length_append]; omega), List.take_left' hheader, List.drop_left' hheader]

/-- **Of one that does not, the rest is left.** -/
theorem recvHeader_short {data : Bytes} (hs : s.Inv) (h : arrived < ServerMetaMessage.packlength)
    (hrecv : (s.request R r).recvHeader arrived = .ok (data, t)) :
    ¬ t.AtBoundary ∧ ServerMetaMessage.deserialize data = .error .structError := by
  have hheader := (R.reply s.server r).length_header
  have hunread : (s.request R r).unread = (R.reply s.server r).response := by
    rw [request, hs.unread, List.nil_append]
  have hlength : (R.reply s.server r).response.length =
      ServerMetaMessage.packlength + (R.reply s.server r).data.length := by
    rw [Reply.response, List.length_append, hheader]
  unfold recvHeader at hrecv
  rw [hunread, Nat.min_eq_left h.le] at hrecv
  dsimp only at hrecv
  split_ifs at hrecv with hblocks
  cases hrecv
  constructor
  · refine not_atBoundary s.responses (R.reply s.server r).response rfl ?_ ?_
    · show 0 < ((R.reply s.server r).response.drop arrived).length
      rw [List.length_drop]
      omega
    · show ((R.reply s.server r).response.drop arrived).length < _
      rw [List.length_drop]
      omega
  · have hne : ((R.reply s.server r).response.take arrived).length ≠ ServerMetaMessage.packlength := by
      rw [List.length_take]
      omega
    rw [ServerMetaMessage.deserialize, if_neg hne]

/-- The call is over with nothing unread, and it received its own response. -/
theorem inv_finish (hs : s.Inv) {f : Returned} (hf : f.Own) :
    Inv ({ s.request R r with unread := [] }.finish f) where
  unread := rfl
  own := by
    intro g hg
    rcases List.mem_append.mp hg with hg | hg
    · exact hs.own g hg
    · rw [List.mem_singleton.mp hg]
      exact hf

/-- What a lookup does whose header arrives whole. -/
theorem exist_whole {key : CacheEngineKey} (hs : s.Inv) (hsent : ∃ b, (Request.exist key).msg.serialize = .ok b)
    (h : ServerMetaMessage.packlength ≤ arrived) : ∃ t, s.exist R key arrived = .ok t ∧ t.Inv := by
  obtain ⟨b, hb⟩ := hsent
  have hdata := R.data_exist s.server key
  set a := R.reply s.server (.exist key) with ha
  have hown : Returned.Own ⟨.exist key, a, false, a.header, .present (a.info.code == Constants.serverSuccess)⟩ := by
    refine ⟨?_, rfl⟩
    rw [Reply.response, hdata, List.append_nil]
  refine ⟨_, ?_, inv_finish (R := R) (r := .exist key) hs hown⟩
  unfold exist
  dsimp only
  rw [hb, recvHeader_whole hs h, hdata]
  show (match ServerMetaMessage.deserialize a.header with | .error _ => _ | .ok m => _) = _
  rw [a.read_header]
  rfl

/-- And one whose header does not. -/
theorem exist_short {key : CacheEngineKey} (hs : s.Inv) (hsent : ∃ b, (Request.exist key).msg.serialize = .ok b)
    (h : arrived < ServerMetaMessage.packlength) (hstep : s.exist R key arrived = .ok t) : ¬ t.Usable := by
  obtain ⟨b, hb⟩ := hsent
  unfold exist at hstep
  dsimp only at hstep
  rw [hb] at hstep
  obtain ⟨⟨response, u⟩, hrecv, hstep⟩ := bind_ok hstep
  obtain ⟨hboundary, hread⟩ := recvHeader_short hs h hrecv
  dsimp only at hstep
  rw [hread] at hstep
  cases hstep
  exact fun hu => hboundary hu.boundary

/-- What a `get` does once it has the header: the rest of the call. -/
theorem get_whole_eq {key : CacheEngineKey} {buffer : Option ℕ} (hs : s.Inv)
    (hsent : ∃ b, (Request.get key).msg.serialize = .ok b) (h : ServerMetaMessage.packlength ≤ arrived) :
    s.get R key arrived buffer =
      if (R.reply s.server (.get key)).info.code ≠ Constants.serverSuccess then
        .ok ({ s.request R (.get key) with unread := (R.reply s.server (.get key)).data }.finish
          ⟨.get key, R.reply s.server (.get key), buffer.isSome, (R.reply s.server (.get key)).header, .absent⟩)
      else
        (({ s.request R (.get key) with unread := (R.reply s.server (.get key)).data }.receiveAll
          (R.reply s.server (.get key)).info buffer).map fun x : Outcome × Bytes × Session S =>
            x.2.2.finish ⟨.get key, R.reply s.server (.get key), buffer.isSome,
              (R.reply s.server (.get key)).header ++ x.2.1, x.1⟩) := by
  obtain ⟨b, hb⟩ := hsent
  set a := R.reply s.server (.get key) with ha
  unfold get
  dsimp only
  rw [hb, recvHeader_whole hs h]
  show (match ServerMetaMessage.deserialize a.header with | .error _ => _ | .ok m => _) = _
  rw [a.read_header]
  dsimp only
  split_ifs with hcode
  · rfl
  · show Except.bind _ _ = Except.map _ _
    cases receiveAll _ a.info buffer <;> rfl

/-- What a `get` does whose header arrives whole and whose data finds a buffer. -/
theorem get_whole {key : CacheEngineKey} {buffer : Option ℕ} (hs : s.Inv)
    (hsent : ∃ b, (Request.get key).msg.serialize = .ok b) (h : ServerMetaMessage.packlength ≤ arrived)
    (hbuffer : (R.reply s.server (.get key)).data ≠ [] →
      ∃ size, buffer = some size ∧ (R.reply s.server (.get key)).data.length ≤ size) :
    ∃ t, s.get R key arrived buffer = .ok t ∧ t.Inv := by
  have habsent := R.data_absent s.server key
  rw [get_whole_eq hs hsent h]
  set a := R.reply s.server (.get key) with ha
  split_ifs with hcode
  · have hdata := habsent hcode
    have hown : Returned.Own ⟨.get key, a, buffer.isSome, a.header, .absent⟩ := by
      refine ⟨?_, ?_⟩
      · rw [Reply.response, hdata, List.append_nil]
      · rw [Reply.outcome, if_neg fun hc => hcode hc.1]
    exact ⟨_, rfl, hdata ▸ inv_finish (R := R) (r := .get key) hs hown⟩
  · have hsuccess := not_not.mp hcode
    cases buffer with
    | none =>
      have hdata : a.data = [] := by
        by_contra hne
        obtain ⟨size, hsome, -⟩ := hbuffer hne
        cases hsome
      have hown : Returned.Own ⟨.get key, a, false, a.header ++ [], .absent⟩ := by
        refine ⟨?_, ?_⟩
        · rw [Reply.response, hdata]
        · rw [Reply.outcome, if_neg fun hc => Bool.false_ne_true hc.2]
      exact ⟨_, rfl, hdata ▸ inv_finish (R := R) (r := .get key) hs hown⟩
    | some size =>
      have hsize : a.info.obj.length.toNat ≤ size := by
        rw [← a.length_data]
        by_cases hne : a.data = []
        · rw [hne]
          exact Nat.zero_le _
        · obtain ⟨size', hsome, hle⟩ := hbuffer hne
          cases hsome
          exact hle
      have hown : Returned.Own ⟨.get key, a, true, a.header ++ a.data, .value a.info.obj a.data⟩ := by
        refine ⟨rfl, ?_⟩
        rw [Reply.outcome, if_pos ⟨hsuccess, rfl⟩]
      refine ⟨_, ?_, inv_finish (R := R) (r := .get key) hs hown⟩
      rw [receiveAll, if_neg (Nat.not_lt.mpr hsize)]
      dsimp only
      rw [← a.length_data, if_neg (Nat.lt_irrefl _), List.take_length, List.drop_length]
      rfl

/-- **Where the data finds no buffer it is left.** -/
theorem get_abandoned {key : CacheEngineKey} {buffer : Option ℕ} (hs : s.Inv)
    (hsent : ∃ b, (Request.get key).msg.serialize = .ok b) (h : ServerMetaMessage.packlength ≤ arrived)
    (hdata : (R.reply s.server (.get key)).data ≠ [])
    (hbuffer : ∀ size, buffer = some size → size < (R.reply s.server (.get key)).data.length)
    (hstep : s.get R key arrived buffer = .ok t) : ¬ t.Usable := by
  have habsent := R.data_absent s.server key
  rw [get_whole_eq hs hsent h] at hstep
  set a := R.reply s.server (.get key) with ha
  rw [if_neg (fun hcode => hdata (habsent hcode))] at hstep
  obtain ⟨⟨outcome, payload, u⟩, hreceive, rfl⟩ := map_ok hstep
  have hu : u = { s.request R (.get key) with unread := a.data } := by
    cases buffer with
    | none =>
      cases hreceive
      rfl
    | some size =>
      have hsize := hbuffer size rfl
      rw [a.length_data] at hsize
      rw [receiveAll] at hreceive
      dsimp only at hreceive
      rw [if_pos hsize] at hreceive
      cases hreceive
      rfl
  have hboundary : ¬ u.AtBoundary := by
    rw [hu]
    have hpos := List.length_pos_iff.mpr hdata
    refine not_atBoundary s.responses a.response rfl hpos ?_
    show a.data.length < (a.header ++ a.data).length
    rw [List.length_append, a.length_header]
    have hheader : 0 < ServerMetaMessage.packlength := by decide
    omega
  exact fun husable => hboundary husable.boundary

/-- And a `get` whose header does not arrive whole. -/
theorem get_short {key : CacheEngineKey} {buffer : Option ℕ} (hs : s.Inv)
    (hsent : ∃ b, (Request.get key).msg.serialize = .ok b) (h : arrived < ServerMetaMessage.packlength)
    (hstep : s.get R key arrived buffer = .ok t) : ¬ t.Usable := by
  obtain ⟨b, hb⟩ := hsent
  unfold get at hstep
  dsimp only at hstep
  rw [hb] at hstep
  obtain ⟨⟨response, u⟩, hrecv, hstep⟩ := bind_ok hstep
  obtain ⟨hboundary, hread⟩ := recvHeader_short hs h hrecv
  dsimp only at hstep
  rw [hread] at hstep
  cases hstep
  exact fun hu => hboundary hu.boundary

end Steps

/-- What a call does under the condition. -/
theorem step_of_covers (R : RemoteServer S) (s : Session S) (c : Call) (hs : s.Inv) (hc : s.Covers R c) :
    ∃ t, s.step R c = .ok t ∧ t.Inv := by
  cases c with
  | exist key arrived =>
    by_cases hsent : ∃ b, (Request.exist key).msg.serialize = .ok b
    · exact exist_whole hs hsent (hc hsent)
    · refine ⟨s, ?_, hs⟩
      rw [step, exist]
      dsimp only
      split
      · rfl
      · rename_i b hb
        exact absurd ⟨b, hb⟩ hsent
  | get key arrived buffer =>
    by_cases hsent : ∃ b, (Request.get key).msg.serialize = .ok b
    · obtain ⟨harrived, hbuffer⟩ := hc hsent
      exact get_whole hs hsent harrived hbuffer
    · refine ⟨s, ?_, hs⟩
      rw [step, get]
      dsimp only
      split
      · rfl
      · rename_i b hb
        exact absurd ⟨b, hb⟩ hsent
  | put key obj kvBytes =>
    refine ⟨_, rfl, ?_⟩
    unfold put
    split
    · exact hs
    · exact ⟨hs.unread, hs.own⟩

/-- And only under it can the next call be understood. -/
theorem covers_of_usable (R : RemoteServer S) (s : Session S) (c : Call) (t : Session S) (hs : s.Inv)
    (h : s.step R c = .ok t) (ht : t.Usable) : s.Covers R c := by
  cases c with
  | exist key arrived =>
    intro hsent
    by_contra hshort
    exact exist_short hs hsent (Nat.not_le.mp hshort) h ht
  | get key arrived buffer =>
    intro hsent
    have harrived : ServerMetaMessage.packlength ≤ arrived := by
      by_contra hshort
      exact get_short hs hsent (Nat.not_le.mp hshort) h ht
    refine ⟨harrived, fun hdata => ?_⟩
    by_contra hbuffer
    refine get_abandoned hs hsent harrived hdata (fun size hsize => ?_) h ht
    by_contra hle
    exact hbuffer ⟨size, hsize, Nat.not_lt.mp hle⟩
  | put key obj kvBytes => trivial

/-- **A connection stays usable exactly as long as every header arrives at once and all data finds a buffer.** -/
theorem everyState_usable (R : RemoteServer S) (server : S) (calls : List Call) :
    Along (step R) (Covers R) (.new server) calls ↔ EveryState (step R) Usable (.new server) calls := by
  have hnew : (new server).Inv := ⟨rfl, fun f hf => absurd hf List.not_mem_nil⟩
  exact along_iff_everyState_of_inv (fun s hs => hs.usable) (step_of_covers R) (covers_of_usable R) hnew

end Session

/-! ## The server of the repository -/

namespace LMCacheServer

/-- What is to be received can be packed. -/
theorem fits_replyTo {d : Dict CacheEngineKey LMSMemoryObj} (hd : Connection.Kept d) (r : Request) :
    Bytes.IsInt32 (Connection.replyTo d r).1.code ∧ (Connection.replyTo d r).1.obj.Fits := by
  have hno : noObj.Fits := by decide
  cases r with
  | exist key =>
    refine ⟨?_, hno⟩
    show Bytes.IsInt32 (existCode d.keys key)
    unfold existCode
    split_ifs <;> decide
  | get key =>
    cases ho : d.lookup key with
    | none =>
      rw [Connection.replyTo, ho]
      exact ⟨by decide, hno⟩
    | some o =>
      have hsuccess : Bytes.IsInt32 Constants.serverSuccess := by decide
      rw [Connection.replyTo, ho]
      exact ⟨hsuccess, (hd key o ho).1⟩

/-- The response to a request. -/
def replyOf (d : Dict CacheEngineKey LMSMemoryObj) (hd : Connection.Kept d) (r : Request) : Reply :=
  match h : (Connection.replyTo d r).1.serialize with
  | .ok header =>
    { header := header
      info := (Connection.replyTo d r).1
      data := (Connection.replyTo d r).2
      read_header := by
        have hread := ServerMetaMessage.deserialize_serialize (fits_replyTo hd r).1 (fits_replyTo hd r).2
        rw [h] at hread
        exact hread
      length_data := Connection.length_replyTo hd r }
  | .error _ =>
    absurd h (by
      obtain ⟨b, hb⟩ := (ServerMetaMessage.serialize_ok_iff (fits_replyTo hd r).1).mpr (fits_replyTo hd r).2
      rw [hb]
      exact fun h => by cases h)

theorem replyOf_eq (d : Dict CacheEngineKey LMSMemoryObj) (hd : Connection.Kept d) (r : Request) :
    (replyOf d hd r).info = (Connection.replyTo d r).1 ∧ (replyOf d hd r).data = (Connection.replyTo d r).2 := by
  unfold replyOf
  split
  · exact ⟨rfl, rfl⟩
  · rename_i e h
    obtain ⟨b, hb⟩ := (ServerMetaMessage.serialize_ok_iff (fits_replyTo hd r).1).mpr (fits_replyTo hd r).2
    rw [hb] at h
    cases h

/-- An object of that description is stored. -/
theorem kept_set {d : Dict CacheEngineKey LMSMemoryObj} (hd : Connection.Kept d) (key : CacheEngineKey) {obj : ObjMeta}
    {data : Bytes} (hobj : obj.Fits) (hdata : data.length = obj.length.toNat) :
    Connection.Kept (d.set key { data := some data, obj := obj }) := by
  intro k o ho
  rw [Dict.lookup_set] at ho
  split_ifs at ho
  · cases ho
    exact ⟨hobj, data, rfl, hdata⟩
  · exact hd k o ho

/-- The server of the repository, with what it stores; a `put` that was packed fits its description. -/
def remote : RemoteServer { d : Dict CacheEngineKey LMSMemoryObj // Connection.Kept d } where
  reply d r := replyOf d.1 d.2 r
  asked d _ := d
  stored d key obj data :=
    if h : obj.Fits ∧ data.length = obj.length.toNat then
      ⟨d.1.set key { data := some data, obj := obj }, kept_set d.2 key h.1 h.2⟩
    else d
  data_exist d key := (replyOf_eq d.1 d.2 (.exist key)).2
  data_absent d key := by
    obtain ⟨hinfo, hdata⟩ := replyOf_eq d.1 d.2 (.get key)
    intro hcode
    rw [hinfo] at hcode
    rw [hdata]
    cases ho : d.1.lookup key with
    | none => rw [Connection.replyTo, ho]
    | some o =>
      rw [Connection.replyTo, ho] at hcode
      exact absurd rfl hcode

/-- What the server sends for a request is that reply. -/
theorem sent_of_request {s s' : LMCacheServer} (hs : s.Sound) (hd : Connection.Kept s.dataStore.dict) {c : Command}
    {r : Request} (hc : c.msg = r.msg) (h : c.exec serve s = .ok s') :
    ∃ header, s'.sent = s.sent ++ (header ++ (remote.reply ⟨s.dataStore.dict, hd⟩ r).data) ∧
      ServerMetaMessage.deserialize header = .ok (remote.reply ⟨s.dataStore.dict, hd⟩ r).info := by
  obtain ⟨header, payload, hsent, hanswer⟩ := Connection.isAnswer_of_exec hs hc h
  obtain ⟨hinfo, hdata⟩ := replyOf_eq s.dataStore.dict hd r
  have hpayload : payload = (remote.reply ⟨s.dataStore.dict, hd⟩ r).data := hanswer.payload_eq.trans hdata.symm
  refine ⟨header, hpayload ▸ hsent, ?_⟩
  rw [hanswer.deserialize]
  exact congrArg Except.ok hinfo.symm

end LMCacheServer

namespace Session

/-- A memory object is stored, its `get` finds no memory, and then the key is looked up. -/
def getWithoutMemory : List Call :=
  [.put (.ofHash "h") twoBytes [7, 9], .get (.ofHash "h") 32 none, .exist (.ofHash "h") 32]

/-- The lookup takes the payload that the `get` left for its header. -/
theorem exist_takes_abandoned_payload :
    ∃ t, Reaches (step LMCacheServer.remote) (.new ⟨∅, fun k o h => by cases h⟩) getWithoutMemory t ∧
      t.finished.map (fun f => f.received.take 2) = [[200, 0], [7, 9]] ∧ ¬ t.Usable := by
  have hrun : ∃ t, Reaches (step LMCacheServer.remote) (.new ⟨∅, fun k o h => by cases h⟩) getWithoutMemory t ∧
      t.finished.map (fun f => f.received.take 2) = [[200, 0], [7, 9]] ∧
      t.finished.map Returned.outcome = [.absent, .raised] := by decide +kernel
  obtain ⟨t, ht, hreceived, houtcome⟩ := hrun
  refine ⟨t, ht, hreceived, fun husable => ?_⟩
  obtain ⟨f, hf, hraised⟩ : ∃ f ∈ t.finished, f.outcome = .raised := by
    refine List.mem_map.mp ?_
    rw [houtcome]
    exact List.mem_cons_of_mem _ List.mem_cons_self
  have hown := (husable.own f hf).2
  rw [hraised] at hown
  unfold Reply.outcome at hown
  split at hown
  · cases hown
  · split_ifs at hown

end Session

end FairCache.Experimental
