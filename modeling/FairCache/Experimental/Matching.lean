import FairCache.Experimental.Connector
import FairCache.Wire.Disconnect

/-!
# Requests and their responses in the experimental connector

* `Connection.Paired` : every call that is over received the response to its own request, and returned what that says;
* `Connection.Meets` : nobody who asks waits for the lock when a `get` releases it before its payload, and the buffer for
  the payload is there;
* `Connection.Inv` : what is under way; `Connection.inv_step` : every such step keeps it;
* `everyState_paired` : whole runs.
-/

namespace FairCache.Experimental

open Lib

namespace Connection

/-- The store after a command. -/
def storedPair (d : Dict CacheEngineKey LMSMemoryObj) (r : Record) : Dict CacheEngineKey LMSMemoryObj :=
  if r.1.command = Constants.clientPut then d.set r.1.key { data := some r.2, obj := r.1.obj } else d

/-- What a call should return when the server finds the store. -/
def expected (store : Dict CacheEngineKey LMSMemoryObj) : Request → Outcome
  | .exist key => .present (decide (key ∈ store.keys))
  | .get key =>
    match store.lookup key with
    | some o => .value o.obj (o.data.getD [])
    | none => .absent

/-- The call received what the server sent for its request, and returned what the server's store says. -/
def Own (answers : List Answer) (f : Done) : Prop :=
  ∃ (a : Answer) (r : Request), answers[f.id]? = some a ∧ a.msg = f.msg ∧ r.msg = f.msg ∧ f.received = a.response ∧
    f.outcome = expected a.store r

/-- **Requests and responses match**: the server runs and executed issued commands in their order, the store is that of
the puts on what there was, and each call that is over received the response to its own request. What was sent is
executed, and received, in the end. -/
structure Paired (d : Dict CacheEngineKey LMSMemoryObj) (s : Connection) : Prop where
  running : s.ended = none
  executed : s.executed <+: s.issued
  stored : s.server.dataStore.dict = s.executed.foldl storedPair d
  finished : ∀ f ∈ s.finished, Own s.answers f
  complete : s.sending = none → s.toServer = [] → s.executed = s.issued
  turn : s.sending = none → s.toServer ≠ [] → ∃ t, s.serverTurn = .ok t
  response : s.blocked ≠ none → s.toServer = [] → ∃ op t, s.step op = .ok t ∧ op ≠ .server

/-- The messages fit their fields. When a `get` has the header of a response with data, **nobody who waits for the lock
asks for another response**; and the buffer for the data can be allocated. -/
def Meets (s : Connection) : Step → Prop
  | .ask r => r.msg.Fits
  | .put key obj kvBytes => (putMsg key obj kvBytes).Fits
  | .receive =>
    match s.blocked, ServerMetaMessage.deserialize (s.toClient.take ServerMetaMessage.packlength) with
    | some (.header _ (.get _)), .ok m =>
      m.code = Constants.serverSuccess → 0 < m.obj.length → ∀ w ∈ s.waiters, w.asks = false
    | _, _ => True
  | .allocate size =>
    match s.blocked, size with
    | some (.allocating p), some n => p.info.obj.length ≤ n
    | some (.allocating _), none => False
    | _, _ => True
  | _ => True

/-! ## Invariant -/

/-- A command with its body. -/
def record (c : LMCacheServer.Command) : Record := (c.msg, c.body)

/-- The requests among the commands that the server has not read. -/
def awaited (rest : List LMCacheServer.Command) : List ClientMetaMessage :=
  (rest.filter fun c => c.msg.command ≠ Constants.clientPut).map Frame.msg

/-- What is to be received for the request. -/
def replyTo (store : Dict CacheEngineKey LMSMemoryObj) : Request → ServerMetaMessage × Bytes
  | .exist key => ({ code := LMCacheServer.existCode store.keys key, obj := LMCacheServer.noObj }, [])
  | .get key =>
    match store.lookup key with
    | some o => ({ code := Constants.serverSuccess, obj := o.obj }, o.data.getD [])
    | none => ({ code := Constants.serverFail, obj := LMCacheServer.noObj }, [])

/-- The answer is a header that can be read, with what belongs to it. -/
structure IsAnswer (r : Request) (a : Answer) (header payload : Bytes) : Prop where
  msg : a.msg = r.msg
  response : a.response = header ++ payload
  length_header : header.length = ServerMetaMessage.packlength
  deserialize : ServerMetaMessage.deserialize header = .ok (replyTo a.store r).1
  payload_eq : payload = (replyTo a.store r).2

/-- A `get` that has its header: the server found the key, and `payload` is still to come. -/
structure Awaits (answers : List Answer) (p : Pending) (payload : Bytes) : Prop where
  answer : ∃ a, answers[p.id]? = some a ∧ a.msg = p.request.msg ∧ a.response = p.header ++ payload ∧
    expected a.store p.request = .value p.info.obj payload
  length_payload : payload.length = p.info.obj.length.toNat

/-- What the waiters have still to receive, one after the other. **Whoever asks finds nothing that is due to those behind
it.** -/
inductive Due (answers : List Answer) : List Segment → Bytes → Prop
  | nil : Due answers [] []
  | ask {r : Request} {waiters : List Segment} (h : Due answers waiters []) : Due answers (.ask r :: waiters) []
  | put {key : CacheEngineKey} {obj : ObjMeta} {kvBytes : Bytes} {waiters : List Segment} {b : Bytes}
      (h : Due answers waiters b) : Due answers (.put key obj kvBytes :: waiters) b
  | payload {p : Pending} {waiters : List Segment} {payload b : Bytes} (hp : Awaits answers p payload)
      (h : Due answers waiters b) : Due answers (.payload p :: waiters) (payload ++ b)

/-- Where the event loop is. -/
inductive Serving (s : Connection) (rest : List LMCacheServer.Command) : Prop
  | free (blocked : s.blocked = none) (due : Due s.answers s.waiters s.toClient) (none : awaited rest = [])
      (asked : s.asked = s.answers.length)
  | queued (r : Request) (blocked : s.blocked = some (.header s.answers.length r)) (due : Due s.answers s.waiters [])
      (toClient : s.toClient = []) (one : awaited rest = [r.msg]) (asked : s.asked = s.answers.length + 1)
  | answered (id : ℕ) (r : Request) (a : Answer) (header payload : Bytes) (blocked : s.blocked = some (.header id r))
      (due : Due s.answers s.waiters []) (get : s.answers[id]? = some a) (answer : IsAnswer r a header payload)
      (toClient : s.toClient = header ++ payload) (none : awaited rest = []) (asked : s.asked = s.answers.length)
      (length_payload : payload.length = (replyTo a.store r).1.obj.length.toNat)
  | held (p : Pending) (payload b : Bytes) (blocked : s.blocked = some (.allocating p) ∨ s.blocked = some (.data p))
      (awaits : Awaits s.answers p payload) (due : Due s.answers s.waiters b) (toClient : s.toClient = payload ++ b)
      (none : awaited rest = []) (asked : s.asked = s.answers.length)

/-- The message that the segment sends fits. -/
def SegmentFits : Segment → Prop
  | .ask r => r.msg.Fits
  | .put key obj kvBytes => (putMsg key obj kvBytes).Fits
  | .payload _ => True

/-- Every stored object is there, and its description fits it. -/
def Kept (d : Dict CacheEngineKey LMSMemoryObj) : Prop :=
  ∀ k o, d.lookup k = some o → o.obj.Fits ∧ ∃ data, o.data = some data ∧ data.length = o.obj.length.toNat

/-- **What is under way**: `rest` is what was issued and not yet executed. -/
structure Inv (d : Dict CacheEngineKey LMSMemoryObj) (s : Connection) (rest : List LMCacheServer.Command) : Prop where
  running : s.ended = none
  issued : s.issued = s.executed ++ rest.map record
  toServer : s.toServer ++ s.sending.getD [] = Frame.stream rest
  fits : ∀ c ∈ rest, c.msg.Fits
  sound : s.server.Sound
  kept : Kept s.server.dataStore.dict
  stored : s.server.dataStore.dict = s.executed.foldl storedPair d
  finished : ∀ f ∈ s.finished, Own s.answers f
  alone : s.blocked ≠ none → s.sending = none
  waiting : ∀ w ∈ s.waiters, SegmentFits w
  serving : s.Serving rest

theorem Inv.new {server : LMCacheServer} (hserver : server.Sound) (hkept : Kept server.dataStore.dict) :
    Inv server.dataStore.dict (.new server) [] where
  running := rfl
  issued := rfl
  toServer := rfl
  fits := fun _ h => absurd h List.not_mem_nil
  sound := hserver
  kept := hkept
  stored := rfl
  finished := fun _ h => absurd h List.not_mem_nil
  alone := fun h => absurd rfl h
  waiting := fun _ h => absurd h List.not_mem_nil
  serving := .free rfl .nil rfl rfl

/-! ## Waiters -/

section Waiters
variable {answers : List Answer} {waiters : List Segment} {b : Bytes}

theorem Awaits.append {p : Pending} {payload : Bytes} (h : Awaits answers p payload) (a : Answer) :
    Awaits (answers ++ [a]) p payload := by
  obtain ⟨⟨a', hget, h⟩, hlength⟩ := h
  refine ⟨⟨a', ?_, h⟩, hlength⟩
  rw [List.getElem?_append_left (List.getElem?_eq_some_iff.mp hget).1, hget]

/-- Nobody's payload changes when the server answers. -/
theorem Due.append (h : Due answers waiters b) (a : Answer) : Due (answers ++ [a]) waiters b := by
  induction h with
  | nil => exact .nil
  | ask _ ih => exact .ask ih
  | put _ ih => exact .put ih
  | payload hp _ ih => exact .payload (hp.append a) ih

theorem Own.append {f : Done} (h : Own answers f) (a : Answer) : Own (answers ++ [a]) f := by
  obtain ⟨a', r, hget, h⟩ := h
  refine ⟨a', r, ?_, h⟩
  rw [List.getElem?_append_left (List.getElem?_eq_some_iff.mp hget).1, hget]

theorem Due.of_nil (h : Due answers [] b) : b = [] := by
  cases h
  rfl

/-- Whoever asks goes behind what is due. -/
theorem Due.append_ask (h : Due answers waiters b) (r : Request) : Due answers (waiters ++ [.ask r]) b := by
  induction h with
  | nil => exact .ask .nil
  | ask _ ih => exact .ask ih
  | put _ ih => exact .put ih
  | payload hp _ ih => exact .payload hp ih

theorem Due.append_put (h : Due answers waiters b) (key : CacheEngineKey) (obj : ObjMeta) (kvBytes : Bytes) :
    Due answers (waiters ++ [.put key obj kvBytes]) b := by
  induction h with
  | nil => exact .put .nil
  | ask _ ih => exact .ask ih
  | put _ ih => exact .put ih
  | payload hp _ ih => exact .payload hp ih

/-- **A payload can wait where nobody asks**, and one of no bytes anywhere. -/
theorem Due.append_payload {p : Pending} {payload : Bytes} (hp : Awaits answers p payload)
    (hasks : payload = [] ∨ ∀ w ∈ waiters, w.asks = false) (h : Due answers waiters b) (hb : b = []) :
    Due answers (waiters ++ [.payload p]) payload := by
  induction h with
  | nil => exact List.append_nil payload ▸ .payload hp .nil
  | ask _ ih =>
    rcases hasks with rfl | hasks
    · exact .ask (ih (.inl rfl) rfl)
    · exact Bool.noConfusion (hasks _ List.mem_cons_self)
  | put _ ih => exact .put (ih (hasks.imp_right fun hw w hmem => hw w (List.mem_cons_of_mem _ hmem)) hb)
  | payload hp' _ ih =>
    obtain ⟨rfl, rfl⟩ := List.append_eq_nil_iff.mp hb
    have hrest := ih (hasks.imp_right fun hw w hmem => hw w (List.mem_cons_of_mem _ hmem)) rfl
    exact .payload hp' hrest

end Waiters

/-! ## The server -/

section Steps
variable {d : Dict CacheEngineKey LMSMemoryObj} {s t : Connection} {rest : List LMCacheServer.Command}

theorem command_ne_put (r : Request) : r.msg.command ≠ Constants.clientPut := by
  cases r with
  | exist _ => exact (by decide : Constants.clientExist ≠ Constants.clientPut)
  | get _ => exact (by decide : Constants.clientGet ≠ Constants.clientPut)

/-- The header that the server sends can be read. -/
theorem sent_answer {s s' : LMCacheServer} {code : ℤ} {obj : ObjMeta} (hcode : Bytes.IsInt32 code)
    (h : s.answer code obj = .ok s') :
    ∃ header, s'.sent = s.sent ++ header ∧ header.length = ServerMetaMessage.packlength ∧
      ServerMetaMessage.deserialize header = .ok { code := code, obj := obj } := by
  have hfits : obj.Fits := (LMCacheServer.answer_obj_ok_iff hcode obj).mp ⟨s', h⟩
  have hread := ServerMetaMessage.deserialize_serialize (m := ⟨code, obj⟩) hcode hfits
  unfold LMCacheServer.answer at h
  split at h
  · cases h
  · rename_i header hheader
    cases h
    rw [hheader] at hread
    have hread' : ServerMetaMessage.deserialize header = .ok ⟨code, obj⟩ := hread
    refine ⟨header, rfl, ?_, hread'⟩
    unfold ServerMetaMessage.deserialize at hread'
    split_ifs at hread' with hlength
    exact hlength

/-- A put is answered with nothing. -/
theorem sent_of_put {s s' : LMCacheServer} {c : LMCacheServer.Command} (hc : c.msg.command = Constants.clientPut)
    (h : c.exec LMCacheServer.serve s = .ok s') : s'.sent = s.sent := by
  unfold Frame.exec LMCacheServer.serve at h
  rw [if_pos hc] at h
  split at h
  · cases h
  · cases h
    rfl

/-- **A request is answered with its own response.** -/
theorem isAnswer_of_exec {s s' : LMCacheServer} (hs : s.Sound) {c : LMCacheServer.Command} {r : Request}
    (hc : c.msg = r.msg) (h : c.exec LMCacheServer.serve s = .ok s') :
    ∃ header payload, s'.sent = s.sent ++ (header ++ payload) ∧
      IsAnswer r ⟨r.msg, header ++ payload, s.dataStore.dict⟩ header payload := by
  unfold Frame.exec LMCacheServer.serve at h
  rw [hc, if_neg (command_ne_put r)] at h
  cases r with
  | exist key =>
    have hget : ¬ (Request.exist key).msg.command = Constants.clientGet :=
      (by decide : ¬ Constants.clientExist = Constants.clientGet)
    rw [if_neg hget, if_pos (show (Request.exist key).msg.command = Constants.clientExist from rfl),
      (LMCacheServer.get_sound hs key).2] at h
    have hcode : Bytes.IsInt32 (LMCacheServer.existCode s.dataStore.dict.keys key) := by
      unfold LMCacheServer.existCode
      split_ifs <;> decide
    obtain ⟨header, hsent, hlength, hread⟩ := sent_answer hcode h
    exact ⟨header, [], by rw [hsent, List.append_nil], rfl, rfl, hlength, hread, rfl⟩
  | get key =>
    have hkey : (Request.get key).msg.key = key := rfl
    rw [if_pos (show (Request.get key).msg.command = Constants.clientGet from rfl),
      (LMCacheServer.get_sound hs (Request.get key).msg.key).1, hkey] at h
    cases ho : s.dataStore.dict.lookup key with
    | none =>
      rw [ho] at h
      obtain ⟨header, hsent, hlength, hread⟩ := sent_answer (by decide) h
      refine ⟨header, [], by rw [hsent, List.append_nil], rfl, rfl, hlength, ?_, ?_⟩
      · rw [hread, replyTo, ho]
      · rw [replyTo, ho]
    | some o =>
      rw [ho] at h
      obtain ⟨s₁, hs₁, hdata⟩ := bind_ok h
      obtain ⟨header, hsent, hlength, hread⟩ := sent_answer (by decide) hs₁
      unfold LMCacheServer.answerData at hdata
      split at hdata
      · cases hdata
      · rename_i data hsome
        cases hdata
        refine ⟨header, data, ?_, rfl, rfl, hlength, ?_, ?_⟩
        · show s₁.sent ++ data = _
          rw [hsent, List.append_assoc]
        · rw [hread, replyTo, ho]
        · rw [replyTo, ho]
          show data = o.data.getD []
          rw [hsome]
          rfl

/-- What is stored fits its description. -/
theorem kept_stored {d : Dict CacheEngineKey LMSMemoryObj} (hd : Kept d) {c : LMCacheServer.Command} (h : c.msg.Fits) :
    Kept (LMCacheServer.stored d c) := by
  intro k o ho
  unfold LMCacheServer.stored at ho
  split_ifs at ho with hput
  · rw [Dict.lookup_set] at ho
    split_ifs at ho
    · cases ho
      have hlength : c.body.length = LMCacheServer.bodyLength c.msg := c.length_body
      rw [LMCacheServer.bodyLength, if_pos hput] at hlength
      exact ⟨h.obj, c.body, rfl, hlength⟩
    · exact hd k o ho
  · exact hd k o ho

/-- The data of a response has the length that its header announces. -/
theorem length_replyTo (hd : Kept d) (r : Request) :
    (replyTo d r).2.length = (replyTo d r).1.obj.length.toNat := by
  cases r with
  | exist key => rfl
  | get key =>
    cases ho : d.lookup key with
    | none =>
      rw [replyTo, ho]
      rfl
    | some o =>
      obtain ⟨-, data, hdata, hlength⟩ := hd key o ho
      rw [replyTo, ho]
      show (o.data.getD []).length = _
      rw [hdata]
      exact hlength

theorem awaited_append_put {c : LMCacheServer.Command} (h : c.msg.command = Constants.clientPut) :
    awaited (rest ++ [c]) = awaited rest := by
  simp [awaited, h]

theorem awaited_append_request {c : LMCacheServer.Command} (h : c.msg.command ≠ Constants.clientPut) :
    awaited (rest ++ [c]) = awaited rest ++ [c.msg] := by
  simp [awaited, h]

theorem awaited_cons (c : LMCacheServer.Command) (rest : List LMCacheServer.Command) :
    awaited (c :: rest) = if c.msg.command = Constants.clientPut then awaited rest else c.msg :: awaited rest := by
  by_cases h : c.msg.command = Constants.clientPut
  · simp [awaited, h]
  · simp [awaited, h]

/-- A turn that reads a command. -/
theorem serverTurn_of_read {c : LMCacheServer.Command} {b : Bytes} {server : LMCacheServer} (hrunning : s.ended = none)
    (hread : LMCacheServer.format.read s.toServer = some (.ok (c.msg, c.body, b)))
    (hexec : c.exec LMCacheServer.serve s.server = .ok server) :
    s.serverTurn = .ok
      { s with
        server := server
        toServer := b
        toClient := s.toClient ++ server.sent.drop s.server.sent.length
        executed := s.executed ++ [record c]
        answers := if c.msg.command = Constants.clientPut then s.answers
          else s.answers ++ [⟨c.msg, server.sent.drop s.server.sent.length, s.server.dataStore.dict⟩] } := by
  have hserve : s.server.serve c.msg (some c.body) = .ok server := hexec
  unfold serverTurn
  rw [hrunning, hread]
  dsimp only [Option.isSome_none]
  rw [if_neg Bool.false_ne_true, hserve]
  rfl

/-- **The server executes the first of the commands that are under way.** -/
theorem inv_server (hs : s.Inv d rest) (h : s.step .server = .ok t) : ∃ c rest', rest = c :: rest' ∧ t.Inv d rest' := by
  have hturn : s.serverTurn = .ok t := h
  cases hread : LMCacheServer.format.read s.toServer with
  | none =>
    unfold serverTurn at hturn
    rw [hread, hs.running] at hturn
    cases hturn
  | some x =>
    obtain ⟨c, rest', b, rfl, rfl, hrest⟩ := read_of_append hs.toServer hread
    have hanswerable : s.server.Answerable c := fun _ o ho => (hs.kept _ o ho).1
    obtain ⟨server, hexec⟩ := (LMCacheServer.exec_ok_iff hs.sound c).mpr hanswerable
    obtain ⟨hsound, hstored⟩ := LMCacheServer.exec_stored hs.sound hexec
    have hfits := hs.fits c List.mem_cons_self
    have hkept : Kept server.dataStore.dict := hstored ▸ kept_stored hs.kept hfits
    have hissued : s.issued = (s.executed ++ [record c]) ++ rest'.map record := by
      rw [hs.issued, List.append_assoc]
      rfl
    have hfold : server.dataStore.dict = (s.executed ++ [record c]).foldl storedPair d := by
      rw [hstored, hs.stored, List.foldl_append]
      rfl
    have hrestFits : ∀ c' ∈ rest', c'.msg.Fits := fun c' hc' => hs.fits c' (List.mem_cons_of_mem _ hc')
    rw [serverTurn_of_read hs.running hread hexec] at hturn
    cases hturn
    by_cases hput : c.msg.command = Constants.clientPut
    · have hsent : server.sent.drop s.server.sent.length = [] := by
        rw [sent_of_put hput hexec, List.drop_length]
      rw [if_pos hput, hsent, List.append_nil]
      have hawaited := awaited_cons c rest'
      rw [if_pos hput] at hawaited
      refine ⟨c, rest', rfl, hs.running, hissued, hrest, hrestFits, hsound, hkept, hfold, hs.finished, hs.alone, hs.waiting, ?_⟩
      rcases hs.serving with ⟨h₁, h₂, h₃, h₄⟩ | ⟨r, h₁, h₂, h₃, h₄, h₅⟩ | ⟨id, r, a, hd, pl, h₁, h₂, h₃, h₄, h₅, h₆, h₇, h₈⟩ |
        ⟨p, pl, b', h₁, h₂, h₃, h₄, h₅, h₆⟩
      · exact .free h₁ h₂ (hawaited ▸ h₃) h₄
      · exact .queued r h₁ h₂ h₃ (hawaited ▸ h₄) h₅
      · exact .answered id r a hd pl h₁ h₂ h₃ h₄ h₅ (hawaited ▸ h₆) h₇ h₈
      · exact .held p pl b' h₁ h₂ h₃ h₄ (hawaited ▸ h₅) h₆
    · have hawaited := awaited_cons c rest'
      rw [if_neg hput] at hawaited
      rcases hs.serving with ⟨-, -, h₃, -⟩ | ⟨r, h₁, h₂, h₃, h₄, h₅⟩ | ⟨id, r, a, hd, pl, -, -, -, -, -, h₆, -, -⟩ |
        ⟨p, pl, b', -, -, -, -, h₅, -⟩
      · rw [hawaited] at h₃
        cases h₃
      · rw [hawaited] at h₄
        obtain ⟨hmsg, hnone⟩ := List.cons.inj h₄
        obtain ⟨header, payload, hsent, hanswer⟩ := isAnswer_of_exec hs.sound hmsg hexec
        have hdrop : server.sent.drop s.server.sent.length = header ++ payload := by rw [hsent, List.drop_left]
        have hlength : payload.length = (replyTo s.server.dataStore.dict r).1.obj.length.toNat := by
          rw [hanswer.payload_eq]
          exact length_replyTo hs.kept r
        rw [if_neg hput, hdrop, h₃, List.nil_append, hmsg]
        refine ⟨c, rest', rfl, hs.running, hissued, hrest, hrestFits, hsound, hkept, hfold,
          fun f hf => (hs.finished f hf).append _, hs.alone, hs.waiting, ?_⟩
        refine .answered s.answers.length r _ header payload h₁ (h₂.append _) ?_ hanswer rfl hnone ?_ hlength
        · exact List.getElem?_concat_length
        · rw [h₅, List.length_append]
          rfl
      · rw [hawaited] at h₆
        cases h₆
      · rw [hawaited] at h₅
        cases h₅

/-! ## Coroutines -/

/-- A message that fits, with its body, is a command. -/
theorem exists_command {m : ClientMetaMessage} (h : m.Fits) (body : Bytes)
    (hbody : body.length = LMCacheServer.bodyLength m) :
    ∃ c : LMCacheServer.Command, m.serialize = .ok c.header ∧ c.msg = m ∧ c.body = body := by
  obtain ⟨header, hserialize, hlength, hdeserialize⟩ := h.packed
  exact ⟨⟨header, m, body, hlength, hdeserialize, hbody⟩, hserialize, rfl, rfl⟩

theorem Serving.of_free (h : s.Serving rest) (hblocked : s.blocked = none) :
    Due s.answers s.waiters s.toClient ∧ awaited rest = [] ∧ s.asked = s.answers.length := by
  rcases h with ⟨-, h₂, h₃, h₄⟩ | ⟨r, h₁, -, -, -, -⟩ | ⟨id, r, a, hd, pl, h₁, -, -, -, -, -, -, -⟩ |
    ⟨p, pl, b, h₁, -, -, -, -, -⟩
  · exact ⟨h₂, h₃, h₄⟩
  · rw [hblocked] at h₁
    cases h₁
  · rw [hblocked] at h₁
    cases h₁
  · rw [hblocked] at h₁
    rcases h₁ with h₁ | h₁ <;> cases h₁

/-- The waiters change while the loop is free. -/
theorem inv_waiters {waiters : List Segment} (hs : s.Inv d rest) (hblocked : s.blocked = none)
    (hdue : Due s.answers waiters s.toClient) (hfits : ∀ w ∈ waiters, SegmentFits w) :
    { s with waiters := waiters }.Inv d rest := by
  obtain ⟨-, hawaited, hasked⟩ := hs.serving.of_free hblocked
  exact ⟨hs.running, hs.issued, hs.toServer, hs.fits, hs.sound, hs.kept, hs.stored, hs.finished, hs.alone, hfits,
    .free hblocked hdue hawaited hasked⟩

theorem forall_mem_concat {P : LMCacheServer.Command → Prop} {c : LMCacheServer.Command} (hrest : ∀ c ∈ rest, P c)
    (hc : P c) : ∀ c' ∈ rest ++ [c], P c' := by
  intro c' hc'
  rcases List.mem_append.mp hc' with hc' | hc'
  · exact hrest c' hc'
  · rw [List.mem_singleton.mp hc']
    exact hc

/-- Whoever asks with the lock sends a whole command, and nothing is on its way to the client. -/
theorem inv_run_ask {r : Request} (hs : s.Inv d rest) (hblocked : s.blocked = none) (hsending : s.sending = none)
    (hclient : s.toClient = []) (hfits : r.msg.Fits) : ∃ rest', (s.run (.ask r)).Inv d rest' := by
  obtain ⟨hdue, hawaited, hasked⟩ := hs.serving.of_free hblocked
  obtain ⟨c, hserialize, hmsg, hbody⟩ := exists_command hfits [] (if_neg (command_ne_put r)).symm
  have hsent := hs.toServer
  rw [hsending, Option.getD_none, List.append_nil] at hsent
  rw [hclient] at hdue
  refine ⟨rest ++ [c], ?_⟩
  unfold run
  dsimp only
  rw [hserialize]
  refine ⟨hs.running, ?_, ?_, forall_mem_concat hs.fits (hmsg ▸ hfits), hs.sound, hs.kept, hs.stored, hs.finished,
    fun _ => hsending, hs.waiting, ?_⟩
  · show s.issued ++ [(r.msg, [])] = _
    rw [hs.issued, List.map_append, List.append_assoc, List.map_singleton, record, hmsg, hbody]
  · show (s.toServer ++ c.header) ++ s.sending.getD [] = _
    rw [hsending, Option.getD_none, List.append_nil, hsent, Frame.stream_append, Frame.stream_cons, Frame.stream_nil,
      Frame.bytes, hbody, List.append_nil, List.append_nil]
  · refine .queued r (by rw [hasked]) hdue hclient ?_ (congrArg (· + 1) hasked)
    rw [awaited_append_request (hmsg ▸ command_ne_put r), hawaited, hmsg]
    rfl

/-- A put with the lock sends a command while it holds the lock. -/
theorem inv_run_put {key : CacheEngineKey} {obj : ObjMeta} {kvBytes : Bytes} (hs : s.Inv d rest)
    (hblocked : s.blocked = none) (hsending : s.sending = none) (hfits : (putMsg key obj kvBytes).Fits) :
    ∃ rest', (s.run (.put key obj kvBytes)).Inv d rest' := by
  obtain ⟨hdue, hawaited, hasked⟩ := hs.serving.of_free hblocked
  obtain ⟨c, hserialize, hmsg, hbody⟩ := exists_command hfits kvBytes rfl
  have hsent := hs.toServer
  rw [hsending, Option.getD_none, List.append_nil] at hsent
  refine ⟨rest ++ [c], ?_⟩
  unfold run
  dsimp only
  rw [hserialize]
  refine ⟨hs.running, ?_, ?_, forall_mem_concat hs.fits (hmsg ▸ hfits), hs.sound, hs.kept, hs.stored, hs.finished,
    fun h => absurd hblocked h, hs.waiting, ?_⟩
  · show s.issued ++ [(putMsg key obj kvBytes, kvBytes)] = _
    rw [hs.issued, List.map_append, List.append_assoc, List.map_singleton, record, hmsg, hbody]
  · show s.toServer ++ (c.header ++ kvBytes) = _
    rw [hsent, Frame.stream_append, Frame.stream_cons, Frame.stream_nil, Frame.bytes, hbody, List.append_nil]
  · refine .free hblocked hdue ?_ hasked
    rw [awaited_append_put (hmsg ▸ rfl), hawaited]

/-- A coroutine that starts takes the lock or waits for it. -/
theorem inv_acquire {seg : Segment} (hs : s.Inv d rest) (hblocked : s.blocked = none) (hfits : SegmentFits seg)
    (hstart : ∀ p, seg ≠ .payload p) : ∃ rest', (s.acquire seg).Inv d rest' := by
  obtain ⟨hdue, -, -⟩ := hs.serving.of_free hblocked
  unfold acquire
  split_ifs with hfree
  · obtain ⟨hsending, hwaiters⟩ := hfree
    cases seg with
    | ask r =>
      have hclient : s.toClient = [] := by
        rw [hwaiters] at hdue
        exact hdue.of_nil
      exact inv_run_ask hs hblocked hsending hclient hfits
    | put key obj kvBytes => exact inv_run_put hs hblocked hsending hfits
    | payload p => exact absurd rfl (hstart p)
  · have hall : ∀ w ∈ s.waiters ++ [seg], SegmentFits w := by
      intro w hw
      rcases List.mem_append.mp hw with hw | hw
      · exact hs.waiting w hw
      · rw [List.mem_singleton.mp hw]
        exact hfits
    cases seg with
    | ask r => exact ⟨rest, inv_waiters hs hblocked (hdue.append_ask r) hall⟩
    | put key obj kvBytes => exact ⟨rest, inv_waiters hs hblocked (hdue.append_put key obj kvBytes) hall⟩
    | payload p => exact absurd rfl (hstart p)

/-- **The first waiter goes on.** -/
theorem inv_resume (hs : s.Inv d rest) (h : s.step .resume = .ok t) : ∃ rest', t.Inv d rest' := by
  rw [step] at h
  split at h
  case h_2 => cases h
  rename_i seg waiters hblocked hsending hwaiters
  cases h
  obtain ⟨hdue, hawaited, hasked⟩ := hs.serving.of_free hblocked
  have hfits := hs.waiting
  rw [hwaiters] at hdue hfits
  have hrest : ∀ w ∈ waiters, SegmentFits w := fun w hw => hfits w (List.mem_cons_of_mem _ hw)
  obtain ⟨b, hclient⟩ : ∃ b, s.toClient = b := ⟨_, rfl⟩
  rw [hclient] at hdue
  cases hdue with
  | ask hdue =>
    rename_i r
    have hs' := inv_waiters hs hblocked (hclient ▸ hdue) hrest
    exact inv_run_ask hs' hblocked hsending hclient (hfits _ List.mem_cons_self)
  | put hdue =>
    have hs' := inv_waiters hs hblocked (hclient ▸ hdue) hrest
    exact inv_run_put hs' hblocked hsending (hfits _ List.mem_cons_self)
  | payload hp hdue =>
    rename_i p payload b
    exact ⟨rest, hs.running, hs.issued, hs.toServer, hs.fits, hs.sound, hs.kept, hs.stored, hs.finished,
      fun _ => hsending, hrest, .held p payload b (.inl rfl) hp hdue hclient hawaited hasked⟩

/-- A put sends some of its bytes. -/
theorem inv_send {n : ℕ} (hs : s.Inv d rest) (h : s.step (.send n) = .ok t) : t.Inv d rest := by
  rw [step] at h
  split at h
  case h_2 => cases h
  rename_i bytes hblocked hsending
  split_ifs at h
  cases h
  have hsent := hs.toServer
  rw [hsending, Option.getD_some] at hsent
  obtain ⟨hdue, hawaited, hasked⟩ := hs.serving.of_free hblocked
  refine ⟨hs.running, hs.issued, ?_, hs.fits, hs.sound, hs.kept, hs.stored, hs.finished,
    fun h => absurd hblocked h, hs.waiting, .free hblocked hdue hawaited hasked⟩
  show (s.toServer ++ bytes.take n) ++ bytes.drop n = _
  rw [List.append_assoc, List.take_append_drop, hsent]

/-- It releases the lock. -/
theorem inv_release (hs : s.Inv d rest) (h : s.step .release = .ok t) : t.Inv d rest := by
  rw [step] at h
  split at h
  case h_2 => cases h
  rename_i hblocked hsending
  cases h
  have hsent := hs.toServer
  rw [hsending] at hsent
  obtain ⟨hdue, hawaited, hasked⟩ := hs.serving.of_free hblocked
  exact ⟨hs.running, hs.issued, hsent, hs.fits, hs.sound, hs.kept, hs.stored, hs.finished,
    fun h => absurd hblocked h, hs.waiting, .free hblocked hdue hawaited hasked⟩

/-! ## Receives -/

/-- A call that is over received its own response. -/
theorem inv_finish {id : ℕ} {r : Request} {received b : Bytes} {outcome : Outcome} (hs : s.Inv d rest)
    (hown : Own s.answers ⟨id, r.msg, received, outcome⟩) (hdue : Due s.answers s.waiters b) (hawaited : awaited rest = [])
    (hasked : s.asked = s.answers.length) : ({ s with toClient := b }.finish id r received outcome).Inv d rest := by
  refine ⟨hs.running, hs.issued, hs.toServer, hs.fits, hs.sound, hs.kept, hs.stored, fun f hf => ?_,
    fun h => absurd rfl h, hs.waiting, .free rfl hdue hawaited hasked⟩
  rcases List.mem_append.mp hf with hf | hf
  · exact hs.finished f hf
  · rw [List.mem_singleton.mp hf]
    exact hown

/-- A code says whether the key is there. -/
theorem existCode_eq_success (keys : List CacheEngineKey) (key : CacheEngineKey) :
    (LMCacheServer.existCode keys key == Constants.serverSuccess) = decide (key ∈ keys) := by
  unfold LMCacheServer.existCode
  by_cases h : key ∈ keys
  · rw [if_pos h, decide_eq_true h]
    rfl
  · rw [if_neg h, decide_eq_false h]
    rfl

/-- Who has a header asks for the lock to receive the payload. -/
theorem inv_acquire_payload {p : Pending} {payload : Bytes} (hs : s.Inv d rest) (hsending : s.sending = none)
    (hawaits : Awaits s.answers p payload) (hasks : payload = [] ∨ ∀ w ∈ s.waiters, w.asks = false)
    (hdue : Due s.answers s.waiters []) (hawaited : awaited rest = []) (hasked : s.asked = s.answers.length) :
    ({ s with toClient := payload, blocked := none }.acquire (.payload p)).Inv d rest := by
  unfold acquire
  split_ifs with hfree
  · exact ⟨hs.running, hs.issued, hs.toServer, hs.fits, hs.sound, hs.kept, hs.stored, hs.finished, fun _ => hsending,
      hs.waiting, .held _ payload [] (.inl rfl) hawaits hdue (List.append_nil _).symm hawaited hasked⟩
  · refine ⟨hs.running, hs.issued, hs.toServer, hs.fits, hs.sound, hs.kept, hs.stored, hs.finished,
      fun _ => hsending, fun w hw => ?_, .free rfl (.append_payload hawaits hasks hdue rfl) hawaited hasked⟩
    rcases List.mem_append.mp hw with hw | hw
    · exact hs.waiting w hw
    · rw [List.mem_singleton.mp hw]
      trivial

/-- **The header of a response is received.** -/
theorem inv_receiveHeader {id : ℕ} {r : Request} (hs : s.Inv d rest) (hm : s.Meets .receive)
    (hblocked : s.blocked = some (.header id r)) (h : s.receiveHeader id r = .ok t) : t.Inv d rest := by
  rcases hs.serving with ⟨h₁, -, -, -⟩ | ⟨r', h₁, h₂, h₃, h₄, h₅⟩ |
    ⟨id', r', a, header, payload, h₁, hdue, hget, hanswer, hclient, hawaited, hasked, hlength⟩ | ⟨p, pl, b, h₁, -, -, -, -, -⟩
  · rw [hblocked] at h₁
    cases h₁
  · unfold receiveHeader at h
    rw [h₃] at h
    cases h
  · rw [hblocked] at h₁
    cases h₁
    have hsending : s.sending = none := hs.alone (hblocked ▸ Option.some_ne_none _)
    have htake : s.toClient.take ServerMetaMessage.packlength = header := by
      rw [hclient, List.take_left' hanswer.length_header]
    have hdrop : s.toClient.drop ServerMetaMessage.packlength = payload := by
      rw [hclient, List.drop_left' hanswer.length_header]
    have hlong : ¬ s.toClient.length < ServerMetaMessage.packlength := by
      rw [hclient, List.length_append, hanswer.length_header]
      omega
    have hown : ∀ outcome, payload = [] → outcome = expected a.store r → Own s.answers ⟨id, r.msg, header, outcome⟩ := by
      intro outcome hnil hexpected
      exact ⟨a, r, hget, hanswer.msg, rfl, by rw [hanswer.response, hnil, List.append_nil], hexpected⟩
    unfold receiveHeader at h
    dsimp only at h
    rw [if_neg hlong, htake, hdrop, hanswer.deserialize] at h
    have hpayload := hanswer.payload_eq
    unfold Meets at hm
    rw [hblocked, htake, hanswer.deserialize] at hm
    cases r with
    | exist key =>
      cases h
      have hnil : payload = [] := hpayload
      subst hnil
      refine inv_finish hs (hown _ rfl ?_) hdue hawaited hasked
      exact congrArg Outcome.present (existCode_eq_success _ _)
    | get key =>
      cases ho : a.store.lookup key with
      | none =>
        have hreply : replyTo a.store (.get key) =
            ({ code := Constants.serverFail, obj := LMCacheServer.noObj }, []) := by rw [replyTo, ho]
        rw [hreply] at h hpayload
        have hnil : payload = [] := hpayload
        subst hnil
        dsimp only at h
        rw [if_neg (by decide)] at h
        cases h
        refine inv_finish hs (hown _ rfl ?_) hdue hawaited hasked
        rw [expected, ho]
      | some o =>
        have hreply : replyTo a.store (.get key) =
            ({ code := Constants.serverSuccess, obj := o.obj }, o.data.getD []) := by rw [replyTo, ho]
        rw [hreply] at h hpayload hm hlength
        dsimp only at h hm hlength
        rw [if_pos rfl] at h
        cases h
        have hawaits : Awaits s.answers ⟨id, .get key, header, ⟨Constants.serverSuccess, o.obj⟩⟩ payload := by
          refine ⟨⟨a, hget, hanswer.msg, hanswer.response, ?_⟩, hlength⟩
          rw [expected, ho, hpayload]
        have hasks : payload = [] ∨ ∀ w ∈ s.waiters, w.asks = false := by
          rcases Nat.eq_zero_or_pos o.obj.length.toNat with hzero | hpos
          · exact .inl (List.eq_nil_of_length_eq_zero (hlength.trans hzero))
          · exact .inr (hm rfl (by omega))
        exact inv_acquire_payload hs hsending hawaits hasks hdue hawaited hasked
  · rw [hblocked] at h₁
    rcases h₁ with h₁ | h₁ <;> cases h₁

/-- What is held while the payload is to come. -/
theorem Serving.of_held {p : Pending} (h : s.Serving rest)
    (hblocked : s.blocked = some (.allocating p) ∨ s.blocked = some (.data p)) :
    ∃ payload b, Awaits s.answers p payload ∧ Due s.answers s.waiters b ∧ s.toClient = payload ++ b ∧ awaited rest = [] ∧
      s.asked = s.answers.length := by
  rcases h with ⟨h₁, -, -, -⟩ | ⟨r, h₁, -, -, -, -⟩ | ⟨id, r, a, hd, pl, h₁, -, -, -, -, -, -, -⟩ |
    ⟨p', pl, b, h₁, h₂, h₃, h₄, h₅, h₆⟩
  · rw [h₁] at hblocked
    rcases hblocked with h | h <;> cases h
  · rw [h₁] at hblocked
    rcases hblocked with h | h <;> cases h
  · rw [h₁] at hblocked
    rcases hblocked with h | h <;> cases h
  · obtain rfl : p' = p := by
      rcases h₁ with h₁ | h₁ <;> rw [h₁] at hblocked <;> rcases hblocked with h | h <;> cases h <;> rfl
    exact ⟨pl, b, h₂, h₃, h₄, h₅, h₆⟩

/-- The buffer for the payload is there. -/
theorem inv_allocate {size : Option ℕ} (hs : s.Inv d rest) (hm : s.Meets (.allocate size))
    (h : s.step (.allocate size) = .ok t) : t.Inv d rest := by
  have hallocate : s.allocate size = .ok t := h
  unfold allocate at hallocate
  split at hallocate
  case h_2 => cases hallocate
  rename_i p hblocked
  obtain ⟨payload, b, hawaits, hdue, hclient, hawaited, hasked⟩ := hs.serving.of_held (.inl hblocked)
  have hsending : s.sending = none := hs.alone (hblocked ▸ Option.some_ne_none _)
  unfold Meets at hm
  rw [hblocked] at hm
  cases size with
  | none => exact hm.elim
  | some n =>
    dsimp only at hallocate hm
    rw [if_pos hm] at hallocate
    cases hallocate
    exact ⟨hs.running, hs.issued, hs.toServer, hs.fits, hs.sound, hs.kept, hs.stored, hs.finished, fun _ => hsending,
      hs.waiting, .held p payload b (.inr rfl) hawaits hdue hclient hawaited hasked⟩

/-- **The payload is received.** -/
theorem inv_receiveData {p : Pending} (hs : s.Inv d rest) (hblocked : s.blocked = some (.data p))
    (h : s.receiveData p = .ok t) : t.Inv d rest := by
  obtain ⟨payload, b, ⟨⟨a, hget, hmsg, hresponse, hexpected⟩, hlength⟩, hdue, hclient, hawaited, hasked⟩ :=
    hs.serving.of_held (.inr hblocked)
  unfold receiveData at h
  dsimp only at h
  rw [hclient, ← hlength, List.take_left, List.drop_left, List.length_append, if_neg (by omega)] at h
  cases h
  exact inv_finish hs ⟨a, p.request, hget, hmsg, rfl, hresponse.symm, hexpected.symm⟩ hdue hawaited hasked

/-- **Every step that meets the condition keeps the invariant.** -/
theorem inv_step (s : Connection) (op : Step) (t : Connection) (hs : ∃ rest, s.Inv d rest) (hm : s.Meets op)
    (h : s.step op = .ok t) : ∃ rest, t.Inv d rest := by
  obtain ⟨rest, hs⟩ := hs
  have hfree : ¬ s.blocked.isSome → s.blocked = none := Option.not_isSome_iff_eq_none.mp
  cases op with
  | ask r =>
    rw [step] at h
    split_ifs at h with hblocked
    cases h
    exact inv_acquire hs (hfree hblocked) hm fun _ h => by cases h
  | put key obj kvBytes =>
    rw [step] at h
    split_ifs at h with hblocked
    cases h
    exact inv_acquire hs (hfree hblocked) hm fun _ h => by cases h
  | resume => exact inv_resume hs h
  | send n => exact ⟨rest, inv_send hs h⟩
  | release => exact ⟨rest, inv_release hs h⟩
  | allocate size => exact ⟨rest, inv_allocate hs hm h⟩
  | receive =>
    rw [step] at h
    split at h
    · rename_i id r hblocked
      exact ⟨rest, inv_receiveHeader hs hm hblocked h⟩
    · rename_i p hblocked
      exact ⟨rest, inv_receiveData hs hblocked h⟩
    · cases h
  | server =>
    obtain ⟨-, rest', -, ht⟩ := inv_server hs h
    exact ⟨rest', ht⟩

/-! ## What the invariant says -/

/-- A loop that is blocked gets on once the server has read everything. -/
theorem exists_step_of_blocked (hs : s.Inv d []) (hblocked : s.blocked ≠ none) :
    ∃ op t, s.step op = .ok t ∧ op ≠ .server := by
  rcases hs.serving with ⟨h₁, -, -, -⟩ | ⟨r, -, -, -, h₄, -⟩ | ⟨id, r, a, header, payload, h₁, -, -, hanswer, hclient, -, -, -⟩ |
    ⟨p, payload, b, h₁, hawaits, -, hclient, -, -⟩
  · exact absurd h₁ hblocked
  · cases h₄
  · refine ⟨.receive, ?_⟩
    have hlong : ¬ s.toClient.length < ServerMetaMessage.packlength := by
      rw [hclient, List.length_append, hanswer.length_header]
      omega
    rw [step, h₁]
    dsimp only
    unfold receiveHeader
    rw [if_neg hlong]
    dsimp only
    cases ServerMetaMessage.deserialize (s.toClient.take ServerMetaMessage.packlength) with
    | error e => exact ⟨_, rfl, fun h => by cases h⟩
    | ok m =>
      cases r with
      | exist key => exact ⟨_, rfl, fun h => by cases h⟩
      | get key =>
        dsimp only
        split_ifs
        · exact ⟨_, rfl, fun h => by cases h⟩
        · exact ⟨_, rfl, fun h => by cases h⟩
  · rcases h₁ with h₁ | h₁
    · have hnone : s.step (.allocate none) = .ok (s.finish p.id p.request p.header .absent) := by
        rw [step, allocate, h₁]
      exact ⟨.allocate none, _, hnone, fun h => by cases h⟩
    · have hlong : ¬ s.toClient.length < p.info.obj.length.toNat := by
        rw [← hawaits.length_payload, hclient, List.length_append]
        omega
      have hreceive : s.step .receive = s.receiveData p := by rw [step, h₁]
      exact ⟨.receive, _, hreceive.trans (if_neg hlong), fun h => by cases h⟩

/-- **What is under way is paired.** -/
theorem paired_of_inv (hs : s.Inv d rest) : s.Paired d where
  running := hs.running
  executed := ⟨_, hs.issued.symm⟩
  stored := hs.stored
  finished := hs.finished
  complete hsending hserver := by
    have hsent := hs.toServer
    rw [hsending, hserver] at hsent
    have hissued := hs.issued
    rw [Frame.eq_nil_of_stream_eq_nil hsent.symm, List.map_nil, List.append_nil] at hissued
    exact hissued.symm
  turn hsending hserver := by
    have hsent := hs.toServer
    rw [hsending, Option.getD_none, List.append_nil] at hsent
    cases rest with
    | nil => exact absurd hsent hserver
    | cons c rest =>
      rw [Frame.stream_cons] at hsent
      unfold serverTurn
      rw [hs.running, hsent, read_frame]
      dsimp only [Option.isSome_none]
      rw [if_neg Bool.false_ne_true]
      split
      · exact ⟨_, rfl⟩
      · exact ⟨_, rfl⟩
  response hblocked hserver := by
    have hsent := hs.toServer
    rw [hs.alone hblocked, hserver] at hsent
    rw [Frame.eq_nil_of_stream_eq_nil hsent.symm] at hs
    exact exists_step_of_blocked hs hblocked

/-- A call that received its own response does not raise. -/
theorem outcome_ne_raised {answers : List Answer} {f : Done} (h : Own answers f) : f.outcome ≠ .raised := by
  obtain ⟨a, r, -, -, -, -, houtcome⟩ := h
  rw [houtcome]
  cases r with
  | exist key => exact fun h => by cases h
  | get key =>
    cases ho : a.store.lookup key with
    | none => rw [expected, ho]; exact fun h => by cases h
    | some o => rw [expected, ho]; exact fun h => by cases h

end Steps

instance (s : Connection) (op : Step) : Decidable (s.Meets op) := by
  unfold Meets
  split
  · infer_instance
  · infer_instance
  · split <;> infer_instance
  · split <;> infer_instance
  · infer_instance

end Connection

/-- **In every run in which nobody who asks waits for the lock when a get releases it before its payload, and in which
the payload finds a buffer, requests and responses match.** -/
theorem everyState_paired {server : LMCacheServer} (hserver : server.Sound) (hkept : Connection.Kept server.dataStore.dict)
    {sched : List Connection.Step} {t : Connection}
    (hmeets : Along Connection.step Connection.Meets (.new server) sched)
    (hrun : Reaches Connection.step (.new server) sched t) :
    EveryState Connection.step (Connection.Paired server.dataStore.dict) (.new server) sched := by
  have hnew : ∃ rest, (Connection.new server).Inv server.dataStore.dict rest := ⟨[], .new hserver hkept⟩
  have hinv := everyState_of_along Connection.inv_step hnew hmeets hrun
  exact hinv.imp fun s ⟨rest, hs⟩ => Connection.paired_of_inv hs

/-- A key and a memory object of two bytes. -/
def twoBytes : ObjMeta := { length := 2, fmt := .kvBlob, dtype := some .uint8, shape := [1, 1, 1, 2] }

/-- A put, a get and a put of the same key that wait for it, and the get's payload behind the second put. -/
def getBetweenPuts : List Connection.Step :=
  [.put (.ofHash "h") twoBytes [7, 9], .ask (.get (.ofHash "h")), .put (.ofHash "h") twoBytes [5, 5], .send 184, .release,
    .server, .resume, .server, .receive, .resume, .send 184, .release, .resume, .allocate (some 2), .receive]

/-- A put, and a get and a lookup of the same key that wait for it. -/
def getAndExist : List Connection.Step :=
  [.put (.ofHash "h") twoBytes [7, 9], .ask (.get (.ofHash "h")), .ask (.exist (.ofHash "h")), .send 184, .release,
    .server, .resume, .server, .receive, .resume, .server, .receive]

/-- The get returns what the first put stored. -/
theorem everyState_paired_getBetweenPuts :
    EveryState Connection.step (Connection.Paired ∅) (.new .new) getBetweenPuts ∧
      ∃ t, Reaches Connection.step (.new .new) getBetweenPuts t ∧
        t.finished.map Done.outcome = [.value twoBytes [7, 9]] := by
  have hmeets : Along Connection.step Connection.Meets (.new .new) getBetweenPuts := by decide +kernel
  have hrun : ∃ t, Reaches Connection.step (.new .new) getBetweenPuts t ∧
      t.finished.map Done.outcome = [.value twoBytes [7, 9]] := by decide +kernel
  obtain ⟨t, ht, houtcome⟩ := hrun
  have hnew : LMCacheServer.new.Sound := ⟨rfl, fun k o h => by cases h⟩
  have hkept : Connection.Kept LMCacheServer.new.dataStore.dict := fun k o h => by cases h
  exact ⟨everyState_paired hnew hkept hmeets ht, t, ht, houtcome⟩

/-- The lookup takes the payload of the get for its header. -/
theorem exist_takes_payload :
    ∃ t, Reaches Connection.step (.new .new) getAndExist t ∧
      t.finished.map (fun f => f.received.take 2) = [[7, 9]] ∧ ¬ t.Paired ∅ := by
  have hrun : ∃ t, Reaches Connection.step (.new .new) getAndExist t ∧
      t.finished.map (fun f => f.received.take 2) = [[7, 9]] ∧ t.finished.map Done.outcome = [.raised] := by decide +kernel
  obtain ⟨t, ht, hreceived, houtcome⟩ := hrun
  refine ⟨t, ht, hreceived, fun hpaired => ?_⟩
  obtain ⟨f, hf, hraised⟩ : ∃ f ∈ t.finished, f.outcome = .raised :=
    List.mem_map.mp (houtcome ▸ List.mem_singleton_self _)
  exact Connection.outcome_ne_raised (hpaired.finished f hf) hraised

end FairCache.Experimental
