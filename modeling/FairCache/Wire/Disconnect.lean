import FairCache.Experimental.Server

/-!
# Clients that disconnect

The client's stream is cut, and `handle_client` meets the end of it.

* `LMCacheServer.undamaged_iff`, `Experimental.LMCacheServer.undamaged_iff` : when the server is left with exactly the whole
  commands;
* `undamaged_disconnect_iff` : both servers.
-/

namespace FairCache

open Lib

namespace LMCacheServer

/-- `update_lock` is free. -/
def Unlocked (s : LMCacheServer) : Prop := s.dataStore.updateLockHeld = false

/-- The store after a command. -/
def stored (d : Dict String Bytes) (c : Command) : Dict String Bytes :=
  if c.msg.command = Constants.clientPut then d.set c.msg.key c.body else d

/-- **The server is undamaged**: `handle_client` returned, the store is that of the whole commands, and the lock is
free. Every stored value is there, since a `None` is not stored. -/
def Undamaged (s : LMCacheServer) (whole : List Command) (r : Option (LMCacheServer × Option ServerError)) : Prop :=
  ServedWhole Unlocked (fun s => s.dataStore.dict) stored s whole r

/-- The length of the data that the command is answered with fits its field. -/
def Answerable (s : LMCacheServer) (c : Command) : Prop :=
  (c.msg.command = Constants.clientGet → ∀ data, s.dataStore.dict.lookup c.msg.key = some data → data.length < 2 ^ 31) ∧
    (c.msg.command = Constants.clientList → s.listing.length < 2 ^ 31)

theorem answer_ok_iff {s : LMCacheServer} {code : ℤ} (hcode : Bytes.IsInt32 code) (data : Bytes) :
    (∃ s', s.answer code data = .ok s') ↔ data.length < 2 ^ 31 := by
  have hint : (∀ n ∈ [code, (data.length : ℤ)], Bytes.IsInt32 n) ↔ data.length < 2 ^ 31 := by
    rw [List.forall_mem_cons, List.forall_mem_singleton]
    unfold Bytes.IsInt32 at *
    omega
  unfold answer ServerMetaMessage.serialize packInts
  rw [← hint]
  dsimp only
  split_ifs with h
  · exact iff_of_true ⟨_, rfl⟩ h
  · exact iff_of_false (fun ⟨_, h'⟩ => by cases h') h

theorem dataStore_answer {s s' : LMCacheServer} {code : ℤ} {data : Bytes} (h : s.answer code data = .ok s') :
    s'.dataStore = s.dataStore := by
  unfold answer at h
  split at h
  · cases h
  · cases h
    rfl

theorem get_unlocked {s : LMCacheServer} (hs : s.Unlocked) (key : String) :
    s.dataStore.get key = .ok (s.dataStore.dict.lookup key) := by
  unfold LMSLocalBackend.get
  rw [hs]
  rfl

theorem put_unlocked {s : LMCacheServer} (hs : s.Unlocked) (key : String) (data : Bytes) :
    s.dataStore.put key (some data) = ({ dict := s.dataStore.dict.set key data, updateLockHeld := false }, none) := by
  unfold LMSLocalBackend.put
  rw [hs]
  rfl

/-- **A whole command is executed exactly when its response fits.** -/
theorem exec_ok_iff {s : LMCacheServer} (hs : s.Unlocked) (c : Command) :
    (∃ s', c.exec serve s = .ok s') ↔ s.Answerable c := by
  have hsuccess : Bytes.IsInt32 Constants.serverSuccess := by decide
  have hfail : Bytes.IsInt32 Constants.serverFail := by decide
  have hdistinct : Constants.clientPut ≠ Constants.clientGet ∧ Constants.clientPut ≠ Constants.clientList ∧
      Constants.clientGet ≠ Constants.clientList ∧ Constants.clientExist ≠ Constants.clientGet ∧
      Constants.clientExist ≠ Constants.clientList := by decide
  unfold Frame.exec serve Answerable
  rw [get_unlocked hs, put_unlocked hs]
  split_ifs with hput hget hexist hlist
  · rw [hput]
    exact iff_of_true ⟨_, rfl⟩ ⟨fun h => absurd h hdistinct.1, fun h => absurd h hdistinct.2.1⟩
  · rw [hget]
    cases hdata : s.dataStore.dict.lookup c.msg.key with
    | none =>
      refine iff_of_true ((answer_ok_iff hfail []).mpr (by decide)) ⟨fun _ d hd => ?_, fun h => absurd h hdistinct.2.2.1⟩
      cases hd
    | some data =>
      dsimp only
      rw [answer_ok_iff hsuccess]
      exact ⟨fun h => ⟨fun _ d hd => Option.some.inj hd ▸ h, fun h' => absurd h' hdistinct.2.2.1⟩, fun h => h.1 rfl data rfl⟩
  · rw [hexist]
    have hcode : Bytes.IsInt32 (s.existCode c.msg.key) := by
      unfold existCode
      split_ifs
      · exact hsuccess
      · exact hfail
    exact iff_of_true ((answer_ok_iff hcode []).mpr (by decide))
      ⟨fun h => absurd h hdistinct.2.2.2.1, fun h => absurd h hdistinct.2.2.2.2⟩
  · rw [answer_ok_iff hsuccess, hlist]
    exact ⟨fun h => ⟨fun h' => absurd h'.symm hdistinct.2.2.1, fun _ => h⟩, fun h => h.2 rfl⟩
  · exact iff_of_true ⟨_, rfl⟩ ⟨fun h => absurd h hget, fun h => absurd h hlist⟩

/-- What the store is after it. -/
theorem exec_stored {s s' : LMCacheServer} (hs : s.Unlocked) {c : Command} (h : c.exec serve s = .ok s') :
    s'.Unlocked ∧ s'.dataStore.dict = stored s.dataStore.dict c := by
  have hsame : s'.dataStore = s.dataStore → s'.Unlocked ∧ s'.dataStore.dict = s.dataStore.dict := by
    intro heq
    unfold Unlocked at *
    rw [heq]
    exact ⟨hs, rfl⟩
  unfold Frame.exec serve at h
  rw [get_unlocked hs, put_unlocked hs] at h
  unfold stored
  split_ifs at h ⊢ with hput hget hexist hlist
  · cases h
    exact ⟨rfl, rfl⟩
  · cases hdata : s.dataStore.dict.lookup c.msg.key with
    | none => rw [hdata] at h; exact hsame (dataStore_answer h)
    | some data => rw [hdata] at h; exact hsame (dataStore_answer h)
  · exact hsame (dataStore_answer h)
  · exact hsame (dataStore_answer h)
  · cases h
    exact hsame rfl

/-- A put whose body did not come leaves the lock held. -/
theorem serve_none {s : LMCacheServer} (hs : s.Unlocked) {c : Command} (hbody : c.body ≠ []) :
    ∃ e, s.serve c.msg none = .error e := by
  have hput : c.msg.command = Constants.clientPut := by
    by_contra hput
    have hlen : c.body.length = bodyLength c.msg := c.length_body
    rw [bodyLength, if_neg hput] at hlen
    exact hbody (List.eq_nil_of_length_eq_zero hlen)
  unfold serve LMSLocalBackend.put
  rw [if_pos hput, hs]
  exact ⟨_, rfl⟩

/-- **The server is undamaged exactly when the stream is not cut in the body of a put** and the responses fit. -/
theorem undamaged_iff {s : LMCacheServer} {cs : List Command} {n : ℕ} {sock : Socket} (hs : s.Unlocked)
    (h : sock.bytes = (Frame.stream cs).take n) :
    s.Undamaged (Frame.complete cs n) (s.handleClient sock) ↔
      ¬ Frame.CutInBody cs n ∧ Along (fun s (c : Command) => c.exec serve s) Answerable s (Frame.complete cs n) := by
  refine servedWhole_iff (fun s c hs ha => (exec_ok_iff hs c).mpr ha) (fun s c s' hs hc => ?_)
    (fun s c s' hs hbody hc => ?_) hs h
  · obtain ⟨hs', hstored⟩ := exec_stored hs hc
    exact ⟨(exec_ok_iff hs c).mp ⟨s', hc⟩, hs', hstored⟩
  · obtain ⟨e, he⟩ := serve_none hs hbody
    rw [hc] at he
    cases he

end LMCacheServer

namespace Experimental.LMCacheServer

/-- The lock is free, and every stored value is there. -/
structure Sound (s : LMCacheServer) : Prop where
  unlocked : s.dataStore.lockHeld = false
  present : ∀ k o, s.dataStore.dict.lookup k = some o → o.data ≠ none

/-- The store after a command. -/
def stored (d : Dict CacheEngineKey LMSMemoryObj) (c : Command) : Dict CacheEngineKey LMSMemoryObj :=
  if c.msg.command = Constants.clientPut then d.set c.msg.key { data := some c.body, obj := c.msg.obj } else d

/-- **The server is undamaged**: `handle_client` returned, the store is that of the whole commands, every stored value
is there, and the lock is free. -/
def Undamaged (s : LMCacheServer) (whole : List Command) (r : Option (LMCacheServer × Option ServerError)) : Prop :=
  ServedWhole Sound (fun s => s.dataStore.dict) stored s whole r

/-- The description of the object that the command is answered with fits its fields. -/
def Answerable (s : LMCacheServer) (c : Command) : Prop :=
  c.msg.command = Constants.clientGet → ∀ o, s.dataStore.dict.lookup c.msg.key = some o → o.obj.Fits

theorem answer_obj_ok_iff {s : LMCacheServer} {code : ℤ} (hcode : Bytes.IsInt32 code) (obj : ObjMeta) :
    (∃ s', s.answer code obj = .ok s') ↔ obj.Fits := by
  have hpack := ServerMetaMessage.serialize_ok_iff (m := { code := code, obj := obj }) hcode
  rw [← hpack]
  unfold answer
  cases ServerMetaMessage.serialize { code := code, obj := obj } with
  | error e => exact iff_of_false (fun ⟨_, h⟩ => by cases h) (fun ⟨_, h⟩ => by cases h)
  | ok header => exact iff_of_true ⟨_, rfl⟩ ⟨_, rfl⟩

theorem dataStore_answer_obj {s s' : LMCacheServer} {code : ℤ} {obj : ObjMeta} (h : s.answer code obj = .ok s') :
    s'.dataStore = s.dataStore := by
  unfold answer at h
  split at h
  · cases h
  · cases h
    rfl

/-- What a whole get comes to. -/
theorem get_sound {s : LMCacheServer} (hs : s.Sound) (key : CacheEngineKey) :
    s.dataStore.get key = .ok (s.dataStore.dict.lookup key) ∧ s.dataStore.listKeys = .ok s.dataStore.dict.keys := by
  unfold LMSLocalBackend.get LMSLocalBackend.listKeys
  rw [hs.unlocked]
  exact ⟨rfl, rfl⟩

theorem put_sound {s : LMCacheServer} (hs : s.Sound) (m : ClientMetaMessage) (data : Option Bytes) :
    s.dataStore.put m data =
      .ok { dict := s.dataStore.dict.set m.key { data := data, obj := m.obj }, lockHeld := false } := by
  unfold LMSLocalBackend.put
  rw [hs.unlocked]
  rfl

/-- The response to a get of an object that is there. -/
theorem answerObj_ok_iff {s : LMCacheServer} (o : LMSMemoryObj) (ho : o.data ≠ none) :
    (∃ s', ((s.answer Constants.serverSuccess o.obj).bind fun s => s.answerData o.data) = .ok s') ↔ o.obj.Fits := by
  obtain ⟨data, hdata⟩ := Option.ne_none_iff_exists'.mp ho
  have hsuccess : Bytes.IsInt32 Constants.serverSuccess := by decide
  rw [← answer_obj_ok_iff (s := s) hsuccess, hdata]
  cases s.answer Constants.serverSuccess o.obj with
  | error e => exact iff_of_false (fun ⟨_, h⟩ => by cases h) (fun ⟨_, h⟩ => by cases h)
  | ok s' => exact iff_of_true ⟨_, rfl⟩ ⟨_, rfl⟩

/-- **A whole command is executed exactly when its response fits.** -/
theorem exec_ok_iff {s : LMCacheServer} (hs : s.Sound) (c : Command) :
    (∃ s', c.exec serve s = .ok s') ↔ s.Answerable c := by
  have hno : noObj.Fits := by decide
  have hdistinct : Constants.clientPut ≠ Constants.clientGet ∧ Constants.clientExist ≠ Constants.clientGet := by decide
  obtain ⟨hget, hlist⟩ := get_sound hs c.msg.key
  unfold Frame.exec serve Answerable
  rw [hget, hlist, put_sound hs]
  split_ifs with hput hget hexist
  · rw [hput]
    exact iff_of_true ⟨_, rfl⟩ fun h => absurd h hdistinct.1
  · rw [hget]
    cases ho : s.dataStore.dict.lookup c.msg.key with
    | none =>
      refine iff_of_true ((answer_obj_ok_iff (by decide) noObj).mpr hno) fun _ o h => ?_
      cases h
    | some o =>
      dsimp only
      rw [answerObj_ok_iff o (hs.present _ _ ho)]
      exact ⟨fun h _ o' ho' => Option.some.inj ho' ▸ h, fun h => h rfl o rfl⟩
  · rw [hexist]
    have hcode : Bytes.IsInt32 (existCode s.dataStore.dict.keys c.msg.key) := by
      unfold existCode
      split_ifs <;> decide
    exact iff_of_true ((answer_obj_ok_iff hcode noObj).mpr hno) fun h => absurd h hdistinct.2
  · exact iff_of_true ⟨_, rfl⟩ fun h => absurd h hget

/-- What the store is after it. -/
theorem exec_stored {s s' : LMCacheServer} (hs : s.Sound) {c : Command} (h : c.exec serve s = .ok s') :
    s'.Sound ∧ s'.dataStore.dict = stored s.dataStore.dict c := by
  have hsame : s'.dataStore = s.dataStore → s'.Sound ∧ s'.dataStore.dict = s.dataStore.dict := by
    intro heq
    exact ⟨⟨heq ▸ hs.unlocked, heq ▸ hs.present⟩, congrArg LMSLocalBackend.dict heq⟩
  obtain ⟨hget, hlist⟩ := get_sound hs c.msg.key
  unfold Frame.exec serve at h
  rw [hget, hlist, put_sound hs] at h
  unfold stored
  split_ifs at h ⊢ with hput hget hexist
  · cases h
    refine ⟨⟨rfl, fun k o ho => ?_⟩, rfl⟩
    rw [Dict.lookup_set] at ho
    split_ifs at ho
    · cases ho
      exact Option.some_ne_none _
    · exact hs.present k o ho
  · cases ho : s.dataStore.dict.lookup c.msg.key with
    | none =>
      rw [ho] at h
      exact hsame (dataStore_answer_obj h)
    | some o =>
      rw [ho] at h
      obtain ⟨s₁, hs₁, hdata⟩ := bind_ok h
      have hstore : s'.dataStore = s₁.dataStore := by
        unfold answerData at hdata
        split at hdata
        · cases hdata
        · cases hdata
          rfl
      exact hsame (hstore.trans (dataStore_answer_obj hs₁))
  · exact hsame (dataStore_answer_obj h)
  · cases h
    exact hsame rfl

/-- A put whose body did not come stores `None`. -/
theorem serve_none {s s' : LMCacheServer} (hs : s.Sound) {c : Command} (hbody : c.body ≠ [])
    (h : s.serve c.msg none = .ok s') : ¬ s'.Sound := by
  have hput : c.msg.command = Constants.clientPut := by
    by_contra hput
    have hlen : c.body.length = bodyLength c.msg := c.length_body
    rw [bodyLength, if_neg hput] at hlen
    exact hbody (List.eq_nil_of_length_eq_zero hlen)
  unfold serve at h
  rw [if_pos hput, put_sound hs] at h
  cases h
  exact fun hs' => hs'.present c.msg.key _ (Dict.lookup_set_self _ _ _) rfl

/-- **The server is undamaged exactly when the stream is not cut in the body of a put** and the responses fit. -/
theorem undamaged_iff {s : LMCacheServer} {cs : List Command} {n : ℕ} {sock : Socket} (hs : s.Sound)
    (h : sock.bytes = (Frame.stream cs).take n) :
    s.Undamaged (Frame.complete cs n) (s.handleClient sock) ↔
      ¬ Frame.CutInBody cs n ∧ Along (fun s (c : Command) => c.exec serve s) Answerable s (Frame.complete cs n) := by
  refine servedWhole_iff (fun s c hs ha => (exec_ok_iff hs c).mpr ha) (fun s c s' hs hc => ?_)
    (fun s c s' hs hbody hc => serve_none hs hbody hc) hs h
  obtain ⟨hs', hstored⟩ := exec_stored hs hc
  exact ⟨(exec_ok_iff hs c).mp ⟨s', hc⟩, hs', hstored⟩

end Experimental.LMCacheServer

/-! ## Both servers -/

/-- **A client that disconnects leaves a server undamaged exactly when its stream is not cut in the body of a put**, if
the responses to its whole commands fit. -/
theorem undamaged_disconnect_iff {s : LMCacheServer} {cs : List LMCacheServer.Command} {n : ℕ} {sock : Socket}
    (hs : s.Unlocked) (h : sock.bytes = (Frame.stream cs).take n) {s' : Experimental.LMCacheServer}
    {cs' : List Experimental.LMCacheServer.Command} {n' : ℕ} {sock' : Socket} (hs' : s'.Sound)
    (h' : sock'.bytes = (Frame.stream cs').take n') :
    (s.Undamaged (Frame.complete cs n) (s.handleClient sock) ↔
      ¬ Frame.CutInBody cs n ∧
        Along (fun s (c : LMCacheServer.Command) => c.exec LMCacheServer.serve s) LMCacheServer.Answerable s
          (Frame.complete cs n)) ∧
    (s'.Undamaged (Frame.complete cs' n') (s'.handleClient sock') ↔
      ¬ Frame.CutInBody cs' n' ∧
        Along (fun s (c : Experimental.LMCacheServer.Command) => c.exec Experimental.LMCacheServer.serve s)
          Experimental.LMCacheServer.Answerable s' (Frame.complete cs' n')) :=
  ⟨LMCacheServer.undamaged_iff hs h, Experimental.LMCacheServer.undamaged_iff hs' h'⟩

/-! ## Streams on concrete inputs -/

/-- A put of two bytes. -/
def putCommand : LMCacheServer.Command :=
  .ofMessage ⟨Constants.clientPut, "k", 2⟩ ⟨by decide, by decide, by decide, by decide⟩ [7, 9] rfl

/-- The same for the experimental server. -/
def experimentalPut : Experimental.LMCacheServer.Command where
  header :=
    [Constants.clientPut, 2, 1, 6, 2, 0, 0, 0].flatMap Bytes.packInt ++
      Bytes.fit Constants.maxKeyLength (Bytes.ljust (Bytes.encode "vllm@m@1@0@h".toList) Constants.maxKeyLength)
  msg :=
    { command := Constants.clientPut, key := ⟨"vllm", "m", 1, 0, "h"⟩
      obj := { length := 2, fmt := .kvBlob, dtype := some .uint8, shape := [2, 0, 0, 0] } }
  body := [7, 9]
  length_header := by decide +kernel
  deserialize_header := by decide +kernel
  length_body := rfl

/-- Puts are answered with nothing. -/
theorem along_puts (s : LMCacheServer) {cs : List LMCacheServer.Command} (h : ∀ c ∈ cs, c = putCommand) :
    Along (fun s (c : LMCacheServer.Command) => c.exec LMCacheServer.serve s) LMCacheServer.Answerable s cs := by
  apply along_of_forall
  intro s c hc
  rw [h c hc]
  exact ⟨fun h => absurd h (by decide), fun h => absurd h (by decide)⟩

theorem along_experimentalPuts (s : Experimental.LMCacheServer) {cs : List Experimental.LMCacheServer.Command}
    (h : ∀ c ∈ cs, c = experimentalPut) :
    Along (fun s (c : Experimental.LMCacheServer.Command) => c.exec Experimental.LMCacheServer.serve s)
      Experimental.LMCacheServer.Answerable s cs := by
  apply along_of_forall
  intro s c hc
  rw [h c hc]
  exact fun h => absurd h (by decide)

/-- A client that puts twice and disconnects within the second header leaves both servers undamaged. -/
theorem undamaged_second_header :
    LMCacheServer.new.Undamaged (Frame.complete [putCommand, putCommand] 200)
        (LMCacheServer.new.handleClient (.ofBytes ((Frame.stream [putCommand, putCommand]).take 200))) ∧
      Experimental.LMCacheServer.new.Undamaged (Frame.complete [experimentalPut, experimentalPut] 200)
        (Experimental.LMCacheServer.new.handleClient
          (.ofBytes ((Frame.stream [experimentalPut, experimentalPut]).take 200))) := by
  have hcut : ¬ Frame.CutInBody [putCommand, putCommand] 200 := by decide +kernel
  have hcut' : ¬ Frame.CutInBody [experimentalPut, experimentalPut] 200 := by decide +kernel
  have hnew : Experimental.LMCacheServer.new.Sound := ⟨rfl, fun k o h => by cases h⟩
  have hunlocked : LMCacheServer.new.Unlocked := rfl
  have hsock := Socket.bytes_ofBytes ((Frame.stream [putCommand, putCommand]).take 200)
  have hsock' := Socket.bytes_ofBytes ((Frame.stream [experimentalPut, experimentalPut]).take 200)
  obtain ⟨hiff, hiff'⟩ := undamaged_disconnect_iff hunlocked hsock hnew hsock'
  rw [hiff, hiff']
  refine ⟨⟨hcut, along_puts _ fun c hc => ?_⟩, ⟨hcut', along_experimentalPuts _ fun c hc => ?_⟩⟩
  · simpa using Frame.mem_of_mem_complete hc
  · simpa using Frame.mem_of_mem_complete hc

/-- A client that disconnects after the first of two bytes of a body leaves one server with its lock held, and the other
with a `None` in its store. -/
theorem cut_body_damages :
    ¬ LMCacheServer.new.Undamaged (Frame.complete [putCommand] 159)
        (LMCacheServer.new.handleClient (.ofBytes ((Frame.stream [putCommand]).take 159))) ∧
      ¬ Experimental.LMCacheServer.new.Undamaged (Frame.complete [experimentalPut] 183)
        (Experimental.LMCacheServer.new.handleClient (.ofBytes ((Frame.stream [experimentalPut]).take 183))) := by
  have hnew : Experimental.LMCacheServer.new.Sound := ⟨rfl, fun k o h => by cases h⟩
  have hcut : Frame.CutInBody [putCommand] 159 := by decide +kernel
  have hcut' : Frame.CutInBody [experimentalPut] 183 := by decide +kernel
  constructor
  · have hsock := Socket.bytes_ofBytes ((Frame.stream [putCommand]).take 159)
    have hunlocked : LMCacheServer.new.Unlocked := rfl
    rw [LMCacheServer.undamaged_iff hunlocked hsock]
    exact fun h => h.1 hcut
  · have hsock := Socket.bytes_ofBytes ((Frame.stream [experimentalPut]).take 183)
    rw [Experimental.LMCacheServer.undamaged_iff hnew hsock]
    exact fun h => h.1 hcut'

end FairCache
