import FairCache.Lib.Bytes
import Mathlib.Data.List.Flatten

/-!
# A socket that is read

* `Socket` : what the peer sent, in the packets it arrives in; after the last of them the peer closes;
* `recv`, `receiveAll` : one read of at most `n` bytes, and the loop that reads until it has `n` of them;
* `receiveAll_of_le`, `receiveAll_of_lt` : what the loop returns does not depend on the packets;
* `Delivery` : a way to split what is sent into packets.
-/

namespace FairCache.Lib

/-- What the peer sent; no packet is empty. -/
structure Socket where
  packets : List Bytes
  nonempty : ∀ p ∈ packets, p ≠ []

namespace Socket

/-- The bytes that are left. -/
def bytes (s : Socket) : Bytes := s.packets.flatten

/-- The whole stream in one packet. -/
def ofBytes (b : Bytes) : Socket where
  packets := if b = [] then [] else [b]
  nonempty := by
    split_ifs with h
    · exact fun p hp => absurd hp List.not_mem_nil
    · exact fun p hp => List.mem_singleton.mp hp ▸ h

@[simp] theorem bytes_ofBytes (b : Bytes) : (ofBytes b).bytes = b := by
  unfold ofBytes bytes
  split_ifs with h
  · exact h.symm
  · exact List.append_nil b

/-- `recv(n)` for a positive `n` : empty exactly at the end of the stream. -/
def recv (s : Socket) (n : ℕ) : Bytes × Socket :=
  match h : s.packets with
  | [] => ([], s)
  | p :: ps =>
    if hlt : n < p.length then
      (p.take n,
        { packets := p.drop n :: ps
          nonempty := by
            refine List.forall_mem_cons.mpr ⟨fun hnil => ?_, fun q hq => s.nonempty q (h ▸ List.mem_cons_of_mem _ hq)⟩
            have := congrArg List.length hnil
            rw [List.length_drop, List.length_nil] at this
            omega })
    else (p, { packets := ps, nonempty := fun q hq => s.nonempty q (h ▸ List.mem_cons_of_mem _ hq) })

/-- `receive_all(n)` with `data` read already. -/
def receiveMore (n : ℕ) (data : Bytes) (s : Socket) : Option Bytes × Socket :=
  if data.length < n then
    match s.recv (n - data.length) with
    | ([], s) => (none, s)
    | (b :: packet, s) => receiveMore n (data ++ b :: packet) s
  else (some data, s)
termination_by n - data.length
decreasing_by
  rw [List.length_append, List.length_cons]
  omega

/-- `receive_all(n)`. -/
def receiveAll (s : Socket) (n : ℕ) : Option Bytes × Socket := receiveMore n [] s

/-- What a read takes off the stream. -/
theorem recv_spec (s : Socket) {n : ℕ} (hn : 0 < n) :
    (s.recv n).1 ++ (s.recv n).2.bytes = s.bytes ∧ (s.recv n).1.length ≤ n ∧ ((s.recv n).1 = [] ↔ s.bytes = []) := by
  obtain ⟨packets, hne⟩ := s
  unfold recv
  cases packets with
  | nil => exact ⟨rfl, Nat.zero_le n, Iff.rfl⟩
  | cons p ps =>
    have hp : p ≠ [] := hne p List.mem_cons_self
    have hbytes : bytes { packets := p :: ps, nonempty := hne } ≠ [] := by
      unfold bytes
      rw [List.flatten_cons]
      exact List.append_ne_nil_of_left_ne_nil hp _
    dsimp only
    split_ifs with h
    · refine ⟨?_, ?_, iff_of_false ?_ hbytes⟩
      · unfold bytes
        rw [List.flatten_cons, List.flatten_cons, ← List.append_assoc, List.take_append_drop]
      · rw [List.length_take]
        omega
      · intro hnil
        have := congrArg List.length hnil
        rw [List.length_take, List.length_nil] at this
        omega
    · exact ⟨rfl, not_lt.mp h, iff_of_false hp hbytes⟩

/-- **The loop returns the next bytes of the stream, whatever the packets**, if there are as many. -/
theorem receiveMore_of_le (n : ℕ) (data : Bytes) (s : Socket) (hdata : data.length ≤ n)
    (h : n ≤ data.length + s.bytes.length) :
    ∃ s', receiveMore n data s = (some (data ++ s.bytes.take (n - data.length)), s') ∧
      s'.bytes = s.bytes.drop (n - data.length) := by
  induction hk : n - data.length using Nat.strong_induction_on generalizing data s with
  | _ k ih =>
    rw [receiveMore]
    split_ifs with hlt
    · obtain ⟨happ, hle, hnil⟩ := s.recv_spec (n := n - data.length) (by omega)
      cases hrecv : s.recv (n - data.length) with
      | mk packet s' =>
        rw [hrecv] at happ hle hnil
        dsimp only at happ hle hnil
        cases packet with
        | nil =>
          rw [hnil.mp rfl, List.length_nil] at h
          omega
        | cons b packet =>
          have hlen := congrArg List.length happ
          rw [List.length_append] at hlen
          have hdata' : (data ++ b :: packet).length = data.length + (b :: packet).length := List.length_append
          have hk' : n - (data ++ b :: packet).length = k - (b :: packet).length := by omega
          have hpos : 0 < (b :: packet).length := Nat.succ_pos _
          obtain ⟨s'', heq, hrest⟩ := ih (k - (b :: packet).length) (by omega) (data ++ b :: packet) s'
            (by omega) (by omega) hk'
          rw [hk] at hle
          refine ⟨s'', heq.trans ?_, hrest.trans ?_⟩
          · rw [← happ, List.append_assoc, List.take_append, List.take_of_length_le hle]
          · rw [← happ, List.drop_append, List.drop_of_length_le hle]
            rfl
    · have hzero : k = 0 := by omega
      rw [hzero]
      exact ⟨s, by rw [List.take_zero, List.append_nil], rfl⟩

/-- A stream that ends before has none of them. -/
theorem receiveMore_of_lt (n : ℕ) (data : Bytes) (s : Socket) (h : data.length + s.bytes.length < n) :
    ∃ s', receiveMore n data s = (none, s') ∧ s'.bytes = [] := by
  induction hk : n - data.length using Nat.strong_induction_on generalizing data s with
  | _ k ih =>
    rw [receiveMore, if_pos (by omega)]
    obtain ⟨happ, hle, hnil⟩ := s.recv_spec (n := n - data.length) (by omega)
    cases hrecv : s.recv (n - data.length) with
    | mk packet s' =>
      rw [hrecv] at happ hle hnil
      dsimp only at happ hle hnil
      cases packet with
      | nil => exact ⟨s', rfl, by rw [← List.nil_append s'.bytes, happ, hnil.mp rfl]⟩
      | cons b packet =>
        have hlen := congrArg List.length happ
        rw [List.length_append, List.length_cons] at hlen
        have hdata' : (data ++ b :: packet).length = data.length + (packet.length + 1) := by
          rw [List.length_append, List.length_cons]
        exact ih (n - (data ++ b :: packet).length) (by omega) (data ++ b :: packet) s' (by omega) rfl

theorem receiveAll_of_le {n : ℕ} {s : Socket} (h : n ≤ s.bytes.length) :
    ∃ s', s.receiveAll n = (some (s.bytes.take n), s') ∧ s'.bytes = s.bytes.drop n := by
  have hmore := receiveMore_of_le n [] s (Nat.zero_le n)
    (by rw [List.length_nil]; omega)
  exact hmore

theorem receiveAll_of_lt {n : ℕ} {s : Socket} (h : s.bytes.length < n) :
    ∃ s', s.receiveAll n = (none, s') ∧ s'.bytes = [] :=
  receiveMore_of_lt n [] s (by rw [List.length_nil]; omega)

/-- Of a stream in one packet, a read returns all that it asks for. -/
theorem recv_ofBytes (b : Bytes) (n : ℕ) : ((ofBytes b).recv n).1 = b.take n := by
  unfold recv
  split
  · rename_i h
    have hbytes := bytes_ofBytes b
    rw [bytes, h, List.flatten_nil] at hbytes
    rw [← hbytes, List.take_nil]
  · rename_i p ps h
    have hp : p = b := by
      unfold ofBytes at h
      dsimp only at h
      by_cases hnil : b = []
      · rw [if_pos hnil] at h
        cases h
      · rw [if_neg hnil] at h
        exact (List.cons.inj h).1.symm
    subst hp
    split_ifs with hlt
    · rfl
    · exact (List.take_of_length_le (not_lt.mp hlt)).symm

/-- What a read that returns all that it asks for leaves. -/
theorem bytes_recv {s : Socket} {n : ℕ} (hn : 0 < n) (h : (s.recv n).1 = s.bytes.take n) :
    (s.recv n).2.bytes = s.bytes.drop n := by
  have happ := (s.recv_spec hn).1
  rw [h] at happ
  exact List.append_cancel_left (happ.trans (List.take_append_drop n s.bytes).symm)

/-- One that returns less leaves the rest. -/
theorem length_recv_lt {s : Socket} {n : ℕ} (hn : 0 < n) (h : (s.recv n).1 ≠ s.bytes.take n) :
    (s.recv n).1.length < n := by
  obtain ⟨happ, hle, -⟩ := s.recv_spec hn
  refine Nat.lt_of_le_of_ne hle fun hlen => h ?_
  rw [← happ, List.take_left' hlen]

end Socket

/-- A way in which the bytes that are sent arrive. -/
structure Delivery where
  socket : Bytes → Socket
  bytes_socket : ∀ b, (socket b).bytes = b

namespace Delivery

/-- All at once. -/
def whole : Delivery := { socket := Socket.ofBytes, bytes_socket := Socket.bytes_ofBytes }

/-- The first `n` bytes, and then the others. -/
def cutAt (n : ℕ) : Delivery where
  socket b :=
    { packets := [b.take n, b.drop n].filter (· ≠ [])
      nonempty := fun p hp => by simpa using (List.mem_filter.mp hp).2 }
  bytes_socket b := by
    show ([b.take n, b.drop n].filter (· ≠ [])).flatten = b
    rw [List.flatten_filter_ne_nil]
    simp

end Delivery

end FairCache.Lib
