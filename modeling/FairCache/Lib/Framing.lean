import FairCache.Lib.Run
import FairCache.Lib.Socket

/-!
# Streams of framed commands

A frame is a header of fixed length that announces how long the body after it is.

* `Format`, `Frame` : how headers are read, and a header with its body; `stream` : the frames one after the other;
* `complete fs n`, `leftover fs n` : the frames that are whole when the stream is cut after `n` bytes, and what is left
  of the next one; `CutInBody` : the cut is after a header and before the end of its body;
* `Format.turn`, `Format.handle` : a server that reads one frame in each turn of its loop, until the stream ends;
* `Format.read` : what a turn reads of a stream that goes on; `receive_eq_read` : in whatever packets it arrives;
* `handle_of_not_cutInBody`, `handle_of_cutInBody` : what it does with a stream that is cut;
* `servedWhole_iff` : when that leaves behind what the whole frames say.
-/

namespace FairCache.Lib

/-- How a header is read, and how many bytes follow it. -/
structure Format (μ ε : Type) where
  headerLength : ℕ
  headerLength_pos : 0 < headerLength
  deserialize : Bytes → Except ε μ
  bodyLength : μ → ℕ

/-- A header that can be read, with its body. -/
structure Frame {μ ε : Type} (F : Format μ ε) where
  header : Bytes
  msg : μ
  body : Bytes
  length_header : header.length = F.headerLength
  deserialize_header : F.deserialize header = .ok msg
  length_body : body.length = F.bodyLength msg

namespace Frame

variable {μ ε : Type} {F : Format μ ε}

/-- The frame as it is sent. -/
def bytes (f : Frame F) : Bytes := f.header ++ f.body

theorem length_bytes (f : Frame F) : f.bytes.length = F.headerLength + f.body.length := by
  rw [bytes, List.length_append, f.length_header]

theorem length_bytes_pos (f : Frame F) : 0 < f.bytes.length := by
  have := F.headerLength_pos
  rw [length_bytes]
  omega

/-- The frames one after the other. -/
def stream (fs : List (Frame F)) : Bytes := fs.flatMap bytes

@[simp] theorem stream_nil : stream ([] : List (Frame F)) = [] := rfl

@[simp] theorem stream_cons (f : Frame F) (fs : List (Frame F)) : stream (f :: fs) = f.bytes ++ stream fs := rfl

theorem stream_append (fs gs : List (Frame F)) : stream (fs ++ gs) = stream fs ++ stream gs := List.flatMap_append

theorem length_le_stream (fs : List (Frame F)) : fs.length ≤ (stream fs).length := by
  induction fs with
  | nil => exact Nat.le_refl _
  | cons f fs ih =>
    have := f.length_bytes_pos
    rw [stream_cons, List.length_append, List.length_cons]
    omega

/-- A stream without bytes has no frames. -/
theorem eq_nil_of_stream_eq_nil {fs : List (Frame F)} (h : stream fs = []) : fs = [] := by
  have hlen := length_le_stream fs
  rw [h] at hlen
  exact List.length_eq_zero_iff.mp (Nat.le_zero.mp hlen)

/-! ## Cuts -/

/-- The frames that are whole when the stream is cut after `n` bytes. -/
def complete : List (Frame F) → ℕ → List (Frame F)
  | [], _ => []
  | f :: fs, n => if f.bytes.length ≤ n then f :: complete fs (n - f.bytes.length) else []

/-- What is left of the frame in which the stream is cut. -/
def leftover : List (Frame F) → ℕ → Bytes
  | [], _ => []
  | f :: fs, n => if f.bytes.length ≤ n then leftover fs (n - f.bytes.length) else f.bytes.take n

/-- The stream is cut after a whole header and before the end of its body. -/
def CutInBody : List (Frame F) → ℕ → Prop
  | [], _ => False
  | f :: fs, n => if f.bytes.length ≤ n then CutInBody fs (n - f.bytes.length) else F.headerLength ≤ n

instance decidableCutInBody : ∀ (fs : List (Frame F)) (n : ℕ), Decidable (CutInBody fs n)
  | [], _ => .isFalse id
  | f :: fs, n =>
    if h : f.bytes.length ≤ n then
      have := decidableCutInBody fs (n - f.bytes.length)
      decidable_of_iff (CutInBody fs (n - f.bytes.length)) (by rw [CutInBody, if_pos h])
    else decidable_of_iff (F.headerLength ≤ n) (by rw [CutInBody, if_neg h])

/-- **A stream that is cut is whole frames and the rest.** -/
theorem take_stream (fs : List (Frame F)) (n : ℕ) : (stream fs).take n = stream (complete fs n) ++ leftover fs n := by
  induction fs generalizing n with
  | nil => exact List.take_nil
  | cons f fs ih =>
    rw [stream_cons, List.take_append, complete, leftover]
    split_ifs with h
    · rw [List.take_of_length_le h, ih, stream_cons, List.append_assoc]
    · rw [Nat.sub_eq_zero_of_le (not_le.mp h).le, List.take_zero, List.append_nil]
      rfl

theorem mem_of_mem_complete {fs : List (Frame F)} {n : ℕ} {f : Frame F} (h : f ∈ complete fs n) : f ∈ fs := by
  induction fs generalizing n with
  | nil => exact h
  | cons g fs ih =>
    rw [complete] at h
    split_ifs at h
    · rcases List.mem_cons.mp h with rfl | h
      · exact List.mem_cons_self
      · exact List.mem_cons_of_mem _ (ih h)
    · exact absurd h List.not_mem_nil

/-- A cut in a header, or between frames, leaves less than a header. -/
theorem length_leftover_lt {fs : List (Frame F)} {n : ℕ} (h : ¬ CutInBody fs n) :
    (leftover fs n).length < F.headerLength := by
  induction fs generalizing n with
  | nil => exact F.headerLength_pos
  | cons f fs ih =>
    rw [CutInBody] at h
    rw [leftover]
    split_ifs at h ⊢ with hle
    · exact ih h
    · rw [List.length_take]
      omega

/-- A cut in a body leaves the header and a part of the body. -/
theorem leftover_of_cutInBody {fs : List (Frame F)} {n : ℕ} (h : CutInBody fs n) :
    ∃ f ∈ fs, ∃ part : Bytes, leftover fs n = f.header ++ part ∧ part.length < f.body.length := by
  induction fs generalizing n with
  | nil => exact h.elim
  | cons f fs ih =>
    rw [CutInBody] at h
    rw [leftover]
    split_ifs at h ⊢ with hle
    · obtain ⟨g, hg, part, heq, hlt⟩ := ih h
      exact ⟨g, List.mem_cons_of_mem _ hg, part, heq, hlt⟩
    · have hlen := f.length_bytes
      have hheader := f.length_header
      refine ⟨f, List.mem_cons_self, f.body.take (n - f.header.length), ?_, ?_⟩
      · rw [bytes, List.take_append, List.take_of_length_le (by omega)]
      · rw [List.length_take]
        omega

attribute [irreducible] complete CutInBody

end Frame

/-! ## Loops -/

/-- What one turn of a loop comes to: it goes on, breaks, or an exception leaves it. -/
inductive Turn (σ ε : Type)
  | next (s : σ) (sock : Socket)
  | stop (s : σ)
  | raise (s : σ) (e : ε)

/-- `while True`, for at most as many turns; the exception that left the loop, if one did. -/
def loop {σ ε : Type} (turn : σ → Socket → Turn σ ε) : ℕ → σ → Socket → Option (σ × Option ε)
  | 0, _, _ => none
  | n + 1, s, sock =>
    match turn s sock with
    | .next s sock => loop turn n s sock
    | .stop s => some (s, none)
    | .raise s e => some (s, some e)

section Serve
variable {μ ε σ ε' : Type} (F : Format μ ε) (wrap : ε → ε') (serve : σ → μ → Option Bytes → Except (σ × ε') σ)

/-- One turn of a server: it reads a header and what the header announces, and serves the message. The body is `none`
where the stream ends in it. -/
def Format.turn (s : σ) (sock : Socket) : Turn σ ε' :=
  match sock.receiveAll F.headerLength with
  | (none, _) => .stop s
  | (some header, sock) =>
    match F.deserialize header with
    | .error e => .raise s (wrap e)
    | .ok m =>
      let (body, sock) := sock.receiveAll (F.bodyLength m)
      match serve s m body with
      | .error (s, e) => .raise s e
      | .ok s => .next s sock

/-- The loop until the stream ends; it takes no more turns than the stream has bytes. -/
def Format.handle (s : σ) (sock : Socket) : Option (σ × Option ε') :=
  loop (F.turn wrap serve) (sock.bytes.length + 1) s sock

variable {F}

/-- What the server does with a whole frame. -/
def Frame.exec (serve : σ → μ → Option Bytes → Except (σ × ε') σ) (s : σ) (f : Frame F) : Except (σ × ε') σ :=
  serve s f.msg (some f.body)

/-- What a turn reads when a whole header is there. -/
theorem turn_header {s : σ} {f : Frame F} {rest : Bytes} {sock : Socket} (h : sock.bytes = f.header ++ rest) :
    ∃ sock' : Socket, sock'.bytes = rest ∧ F.turn wrap serve s sock =
      match serve s f.msg (sock'.receiveAll (F.bodyLength f.msg)).1 with
      | .error (s, e) => .raise s e
      | .ok s => .next s (sock'.receiveAll (F.bodyLength f.msg)).2 := by
  have hlen := congrArg List.length h
  rw [List.length_append, f.length_header] at hlen
  obtain ⟨sock', hrecv, hbytes⟩ := Socket.receiveAll_of_le (s := sock) (n := F.headerLength) (by omega)
  rw [h, List.take_left' f.length_header] at hrecv
  rw [h, List.drop_left' f.length_header] at hbytes
  refine ⟨sock', hbytes, ?_⟩
  unfold Format.turn
  rw [hrecv]
  dsimp only
  rw [f.deserialize_header]

/-- **A turn executes one whole frame.** -/
theorem turn_frame (s : σ) (f : Frame F) (rest : Bytes) (sock : Socket) (h : sock.bytes = f.bytes ++ rest) :
    match f.exec serve s with
    | .ok s' => ∃ sock' : Socket, sock'.bytes = rest ∧ F.turn wrap serve s sock = .next s' sock'
    | .error e => F.turn wrap serve s sock = .raise e.1 e.2 := by
  rw [Frame.bytes, List.append_assoc] at h
  obtain ⟨sock₁, hbytes₁, hturn⟩ := turn_header wrap serve (s := s) h
  have hlen := congrArg List.length hbytes₁
  rw [List.length_append, f.length_body] at hlen
  obtain ⟨sock₂, hrecv, hbytes₂⟩ := Socket.receiveAll_of_le (s := sock₁) (n := F.bodyLength f.msg) (by omega)
  rw [hbytes₁, List.take_left' f.length_body] at hrecv
  rw [hbytes₁, List.drop_left' f.length_body] at hbytes₂
  rw [hturn, hrecv]
  unfold Frame.exec
  cases serve s f.msg (some f.body) with
  | ok s' => exact ⟨sock₂, hbytes₂, rfl⟩
  | error e => rfl

/-- A stream that ends before a header is whole ends the loop. -/
theorem turn_short (s : σ) {sock : Socket} (h : sock.bytes.length < F.headerLength) :
    F.turn wrap serve s sock = .stop s := by
  obtain ⟨sock', hrecv, -⟩ := Socket.receiveAll_of_lt h
  rw [Format.turn, hrecv]

/-- What a turn reads of a stream that goes on: the message, its body and the bytes after it, or nothing while bytes are
missing. -/
def Format.read (F : Format μ ε) (b : Bytes) : Option (Except ε (μ × Bytes × Bytes)) :=
  if b.length < F.headerLength then none
  else
    match F.deserialize (b.take F.headerLength) with
    | .error e => some (.error e)
    | .ok m =>
      let b := b.drop F.headerLength
      if b.length < F.bodyLength m then none else some (.ok (m, b.take (F.bodyLength m), b.drop (F.bodyLength m)))

/-- The same, packet by packet. -/
def Format.receive (F : Format μ ε) (sock : Socket) : Option (Except ε (μ × Bytes × Bytes)) :=
  match sock.receiveAll F.headerLength with
  | (none, _) => none
  | (some header, sock) =>
    match F.deserialize header with
    | .error e => some (.error e)
    | .ok m =>
      match sock.receiveAll (F.bodyLength m) with
      | (none, _) => none
      | (some body, sock) => some (.ok (m, body, sock.bytes))

/-- **What is received does not depend on the packets.** -/
theorem receive_eq_read (sock : Socket) : F.receive sock = F.read sock.bytes := by
  unfold Format.receive Format.read
  split_ifs with hshort
  · obtain ⟨sock₁, hrecv, -⟩ := Socket.receiveAll_of_lt hshort
    rw [hrecv]
  · obtain ⟨sock₁, hrecv, hbytes⟩ := Socket.receiveAll_of_le (Nat.not_lt.mp hshort)
    rw [hrecv]
    dsimp only
    cases F.deserialize (sock.bytes.take F.headerLength) with
    | error e => rfl
    | ok m =>
      dsimp only
      rw [← hbytes]
      split_ifs with hbody
      · obtain ⟨sock₂, hrecv₂, -⟩ := Socket.receiveAll_of_lt hbody
        rw [hrecv₂]
      · obtain ⟨sock₂, hrecv₂, hbytes₂⟩ := Socket.receiveAll_of_le (Nat.not_lt.mp hbody)
        rw [hrecv₂]
        dsimp only
        rw [hbytes₂]

/-- A whole frame is read. -/
theorem read_frame (f : Frame F) (rest : Bytes) : F.read (f.bytes ++ rest) = some (.ok (f.msg, f.body, rest)) := by
  have happ : f.bytes ++ rest = f.header ++ (f.body ++ rest) := List.append_assoc _ _ _
  have hlen : ¬ (f.header ++ (f.body ++ rest)).length < F.headerLength := by
    rw [List.length_append, f.length_header]
    omega
  have hbody : ¬ (f.body ++ rest).length < F.bodyLength f.msg := by
    rw [List.length_append, f.length_body]
    omega
  rw [Format.read, happ, if_neg hlen, List.take_left' f.length_header, f.deserialize_header]
  dsimp only
  rw [List.drop_left' f.length_header, if_neg hbody, List.take_left' f.length_body, List.drop_left' f.length_body]

/-- **What is read of a stream whose end is still to come is its first frame.** -/
theorem read_of_append {b tail : Bytes} {fs : List (Frame F)} (h : b ++ tail = Frame.stream fs) {x : Except ε (μ × Bytes × Bytes)}
    (hread : F.read b = some x) :
    ∃ f fs' rest, fs = f :: fs' ∧ x = .ok (f.msg, f.body, rest) ∧ rest ++ tail = Frame.stream fs' := by
  have hlong : F.headerLength ≤ b.length := by
    by_contra hlt
    rw [Format.read, if_pos (by omega)] at hread
    cases hread
  cases fs with
  | nil =>
    have hlen := congrArg List.length h
    have hpos := F.headerLength_pos
    rw [List.length_append, Frame.stream_nil, List.length_nil] at hlen
    omega
  | cons f fs' =>
    rw [Frame.stream_cons, Frame.bytes, List.append_assoc] at h
    have htake : b.take F.headerLength = f.header := by
      have hhead : (b ++ tail).take F.headerLength = b.take F.headerLength := List.take_append_of_le_length hlong
      rw [← hhead, h, List.take_left' f.length_header]
    have hdrop : b.drop F.headerLength ++ tail = f.body ++ Frame.stream fs' := by
      rw [← List.drop_append_of_le_length hlong, h, List.drop_left' f.length_header]
    rw [Format.read, if_neg (by omega), htake, f.deserialize_header] at hread
    dsimp only at hread
    split_ifs at hread with hbody
    rw [← f.length_body] at hread hbody
    have hle : f.body.length ≤ (b.drop F.headerLength).length := not_lt.mp hbody
    have hfst : (b.drop F.headerLength).take f.body.length = f.body := by
      have hhead : (b.drop F.headerLength ++ tail).take f.body.length = (b.drop F.headerLength).take f.body.length :=
        List.take_append_of_le_length hle
      rw [← hhead, hdrop, List.take_left]
    rw [hfst] at hread
    refine ⟨f, fs', _, rfl, (Option.some.inj hread).symm, ?_⟩
    rw [← List.drop_append_of_le_length hle, hdrop, List.drop_left]

/-- The loop executes the whole frames, if none raises, and then meets what is left of the stream. -/
theorem loop_stream (fs : List (Frame F)) (n : ℕ) (tail : Bytes) :
    ∀ (s : σ) (sock : Socket), sock.bytes = Frame.stream fs ++ tail →
      match fs.foldlM (fun s f => f.exec serve s) s with
      | .ok s' => ∃ sock' : Socket, sock'.bytes = tail ∧
          loop (F.turn wrap serve) (fs.length + n) s sock = loop (F.turn wrap serve) n s' sock'
      | .error e => loop (F.turn wrap serve) (fs.length + n) s sock = some (e.1, some e.2) := by
  induction fs with
  | nil =>
    intro s sock hsock
    exact ⟨sock, hsock, by rw [List.length_nil, Nat.zero_add]⟩
  | cons f fs ih =>
    intro s sock hsock
    rw [Frame.stream_cons, List.append_assoc] at hsock
    have hf := turn_frame wrap serve s f _ sock hsock
    rw [List.foldlM_cons, List.length_cons, Nat.add_right_comm, loop]
    cases hexec : f.exec serve s with
    | error e =>
      rw [hexec] at hf
      show (match F.turn wrap serve s sock with | .next s sock => _ | .stop s => _ | .raise s e => _) = _
      rw [hf]
    | ok s' =>
      rw [hexec] at hf
      obtain ⟨sock', hsock', hnext⟩ := hf
      rw [hnext]
      exact ih s' sock' hsock'

/-- **A stream that is cut in a header or between frames is served up to the cut.** -/
theorem handle_of_not_cutInBody {fs : List (Frame F)} {n : ℕ} {sock : Socket} (s : σ)
    (h : sock.bytes = (Frame.stream fs).take n) (hcut : ¬ Frame.CutInBody fs n) :
    F.handle wrap serve s sock =
      match (Frame.complete fs n).foldlM (fun s f => f.exec serve s) s with
      | .ok s' => some (s', none)
      | .error e => some (e.1, some e.2) := by
  rw [Frame.take_stream] at h
  have hlen := congrArg List.length h
  have hle := Frame.length_le_stream (Frame.complete fs n)
  rw [List.length_append] at hlen
  obtain ⟨k, hk⟩ : ∃ k, sock.bytes.length + 1 = (Frame.complete fs n).length + (k + 1) :=
    ⟨sock.bytes.length - (Frame.complete fs n).length, by omega⟩
  have hloop := loop_stream wrap serve (Frame.complete fs n) (k + 1) _ s sock h
  rw [Format.handle, hk]
  cases hfold : (Frame.complete fs n).foldlM (fun s f => f.exec serve s) s with
  | error e =>
    rw [hfold] at hloop
    exact hloop
  | ok s' =>
    rw [hfold] at hloop
    obtain ⟨sock', hsock', hloop⟩ := hloop
    rw [hloop, loop, turn_short wrap serve s' (by rw [hsock']; exact Frame.length_leftover_lt hcut)]

/-- **A stream that is cut in a body ends with a message that is served without its body.** -/
theorem handle_of_cutInBody {fs : List (Frame F)} {n : ℕ} {sock : Socket} (s : σ)
    (h : sock.bytes = (Frame.stream fs).take n) (hcut : Frame.CutInBody fs n) :
    ∃ f ∈ fs, f.body ≠ [] ∧ F.handle wrap serve s sock =
      match (Frame.complete fs n).foldlM (fun s f => f.exec serve s) s with
      | .ok s' =>
        match serve s' f.msg none with
        | .ok s'' => some (s'', none)
        | .error e => some (e.1, some e.2)
      | .error e => some (e.1, some e.2) := by
  rw [Frame.take_stream] at h
  obtain ⟨f, hf, part, hleft, hpart⟩ := Frame.leftover_of_cutInBody hcut
  have hlen := congrArg List.length h
  have hle := Frame.length_le_stream (Frame.complete fs n)
  have hpos := F.headerLength_pos
  rw [List.length_append, hleft, List.length_append, f.length_header] at hlen
  obtain ⟨k, hk⟩ : ∃ k, sock.bytes.length + 1 = (Frame.complete fs n).length + (k + 1 + 1) :=
    ⟨sock.bytes.length - (Frame.complete fs n).length - 1, by omega⟩
  have hloop := loop_stream wrap serve (Frame.complete fs n) (k + 1 + 1) _ s sock h
  refine ⟨f, hf, fun hnil => by rw [hnil] at hpart; exact Nat.not_lt_zero _ hpart, ?_⟩
  rw [Format.handle, hk]
  cases hfold : (Frame.complete fs n).foldlM (fun s f => f.exec serve s) s with
  | error e =>
    rw [hfold] at hloop
    exact hloop
  | ok s' =>
    rw [hfold] at hloop
    obtain ⟨sock', hsock', hloop⟩ := hloop
    obtain ⟨sock₁, hbytes₁, hturn⟩ := turn_header wrap serve (s := s') (hsock'.trans hleft)
    obtain ⟨sock₂, hrecv, hbytes₂⟩ := Socket.receiveAll_of_lt (s := sock₁) (n := F.bodyLength f.msg)
      (by rw [hbytes₁, ← f.length_body]; exact hpart)
    rw [hrecv] at hturn
    rw [hloop, loop, hturn]
    dsimp only
    cases serve s' f.msg none with
    | error e => rfl
    | ok s'' =>
      show loop (F.turn wrap serve) (k + 1) s'' sock₂ = _
      rw [loop, turn_short wrap serve s'' (by rw [hbytes₂]; exact hpos)]

/-! ## What a cut leaves behind -/

variable {wrap} {serve}

/-- The loop ended by itself, in a state that satisfies `Inv` and shows exactly the frames that were whole. -/
def ServedWhole {δ : Type} (Inv : σ → Prop) (view : σ → δ) (upd : δ → Frame F → δ) (s : σ) (whole : List (Frame F))
    (r : Option (σ × Option ε')) : Prop :=
  ∃ t, r = some (t, none) ∧ Inv t ∧ view t = whole.foldl upd (view s)

/-- **A server whose frames execute as they should, and that a message without its body damages, serves exactly the
streams that are not cut in a body and whose whole frames do not raise.** -/
theorem servedWhole_iff {δ : Type} {Inv : σ → Prop} {view : σ → δ} {upd : δ → Frame F → δ} {Ans : σ → Frame F → Prop}
    (hok : ∀ s f, Inv s → Ans s f → ∃ s', f.exec serve s = .ok s')
    (hupd : ∀ s f s', Inv s → f.exec serve s = .ok s' → Ans s f ∧ Inv s' ∧ view s' = upd (view s) f)
    (hcut : ∀ (s : σ) (f : Frame F) s', Inv s → f.body ≠ [] → serve s f.msg none = .ok s' → ¬ Inv s') {fs : List (Frame F)} {n : ℕ}
    {sock : Socket} {s : σ} (hs : Inv s) (h : sock.bytes = (Frame.stream fs).take n) :
    ServedWhole Inv view upd s (Frame.complete fs n) (F.handle wrap serve s sock) ↔
      ¬ Frame.CutInBody fs n ∧ Along (fun s f => f.exec serve s) Ans s (Frame.complete fs n) := by
  have hrun : ∀ (whole : List (Frame F)) {s t : σ}, Inv s → Reaches (fun s f => f.exec serve s) s whole t →
      Inv t ∧ view t = whole.foldl upd (view s) := by
    intro whole
    induction whole with
    | nil => intro s t hs ht; exact reaches_nil.mp ht ▸ ⟨hs, rfl⟩
    | cons f whole ih =>
      intro s t hs ht
      obtain ⟨s', hf, ht⟩ := reaches_cons.mp ht
      obtain ⟨-, hs', hview⟩ := hupd s f s' hs hf
      obtain ⟨hinv, ht⟩ := ih hs' ht
      exact ⟨hinv, by rw [ht, hview, List.foldl_cons]⟩
  have hreaches : Along (fun s f => f.exec serve s) Ans s (Frame.complete fs n) ↔
      ∃ t, Reaches (fun s f => f.exec serve s) s (Frame.complete fs n) t :=
    along_iff_reaches (fun s f s' hs hf => (hupd s f s' hs hf).2.1)
      (fun s f hs => ⟨fun ha => hok s f hs ha, fun ⟨s', hf⟩ => (hupd s f s' hs hf).1⟩) hs
  rw [hreaches]
  by_cases hbody : Frame.CutInBody fs n
  · obtain ⟨f, -, hf, hhandle⟩ := handle_of_cutInBody wrap serve s h hbody
    refine iff_of_false ?_ (fun h => h.1 hbody)
    rintro ⟨t, ht, hinv, -⟩
    rw [hhandle] at ht
    cases hfold : (Frame.complete fs n).foldlM (fun s f => f.exec serve s) s with
    | error e => rw [hfold] at ht; cases ht
    | ok s' =>
      rw [hfold] at ht
      dsimp only at ht
      cases hserve : serve s' f.msg none with
      | error e => rw [hserve] at ht; cases ht
      | ok s'' =>
        rw [hserve] at ht
        cases ht
        exact hcut s' f t (hrun _ hs hfold).1 hf hserve hinv
  · have hhandle := handle_of_not_cutInBody wrap serve s h hbody
    rw [hhandle]
    constructor
    · rintro ⟨t, ht, -, -⟩
      refine ⟨hbody, ?_⟩
      cases hfold : (Frame.complete fs n).foldlM (fun s f => f.exec serve s) s with
      | error e => rw [hfold] at ht; cases ht
      | ok s' => exact ⟨s', hfold⟩
    · rintro ⟨-, t, ht⟩
      obtain ⟨hinv, hview⟩ := hrun _ hs ht
      refine ⟨t, ?_, hinv, hview⟩
      rw [show (Frame.complete fs n).foldlM (fun s f => f.exec serve s) s = .ok t from ht]

end Serve

end FairCache.Lib
