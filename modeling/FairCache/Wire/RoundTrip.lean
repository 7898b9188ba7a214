import FairCache.Experimental.Protocol
import FairCache.KeyText

/-!
# Round trips of keys and messages

* `ClientMetaMessage.roundTrip_iff`, `Experimental.ClientMetaMessage.roundTrip_iff` : which messages that pass the
  assertions of `serialize` are read back from its bytes;
* `roundTrips_iff` : which keys and messages survive.
-/

namespace FairCache

open Lib

/-! ## The plain protocol -/

namespace ClientMetaMessage

/-- The integers fit and the assertion of `serialize` holds. -/
structure Serializes (m : ClientMetaMessage) : Prop where
  command : Bytes.IsInt32 m.command
  length : Bytes.IsInt32 m.length
  key : m.key.length ≤ Constants.maxKeyLength

/-- `serialize` yields `packlength()` bytes, and `deserialize` returns the message. -/
def RoundTrips (m : ClientMetaMessage) : Prop :=
  ∃ b, m.serialize = .ok b ∧ b.length = packlength ∧ deserialize b = .ok m

variable {m : ClientMetaMessage}

theorem serialize_of_serializes (h : m.Serializes) : m.serialize = .ok m.packed := by
  have hints : ∀ n ∈ [m.command, m.length], Bytes.IsInt32 n :=
    List.forall_mem_cons.mpr ⟨h.command, List.forall_mem_singleton.mpr h.length⟩
  rw [serialize, if_pos h.key, packInts_of_fit hints]
  rfl

theorem drop_packed (m : ClientMetaMessage) :
    m.packed.drop 8 = Bytes.fit Constants.maxKeyLength (Bytes.ljust (Bytes.encode m.key.toList) Constants.maxKeyLength) :=
  List.drop_left' (length_packedInts [m.command, m.length])

/-- **A message is read back exactly when its key fits and is stripped.** -/
theorem roundTrip_iff (h : m.Serializes) :
    m.RoundTrips ↔ (Bytes.encode m.key.toList).length ≤ Constants.maxKeyLength ∧
      Bytes.strip m.key.toList = m.key.toList := by
  constructor
  · rintro ⟨b, hb, -, hread⟩
    rw [serialize_of_serializes h] at hb
    cases hb
    unfold deserialize at hread
    rw [if_pos m.length_packed, drop_packed] at hread
    split at hread
    · rename_i key hdecode
      have hkey : m.key.toList = Bytes.strip key := by
        have := congrArg ClientMetaMessage.key (Except.ok.inj hread)
        rw [← this, String.toList_ofList]
      exact Bytes.le_of_decode_field hdecode (by rw [hkey])
    · cases hread
  · rintro ⟨hle, hstrip⟩
    have hfits : m.Fits := { command := h.command, length := h.length, key := hle, stripped := hstrip }
    exact ⟨m.packed, serialize_of_serializes h, m.length_packed, deserialize_packed hfits⟩

end ClientMetaMessage

/-! ## The experimental protocol -/

namespace Experimental.ClientMetaMessage

/-- The integers fit, the element type has a number, and the assertions of `serialize` hold. -/
structure Serializes (m : Experimental.ClientMetaMessage) : Prop where
  command : Bytes.IsInt32 m.command
  obj : m.obj.Fits
  key : m.key.toString.length ≤ Constants.maxKeyLength

/-- `serialize` yields `packlength()` bytes, and `deserialize` returns the message. -/
def RoundTrips (m : Experimental.ClientMetaMessage) : Prop :=
  ∃ b, m.serialize = .ok b ∧ b.length = packlength ∧ deserialize b = .ok m

variable {m : Experimental.ClientMetaMessage}

/-- **A message is read back exactly when its key fits, is stripped and is read back from its text.** -/
theorem roundTrip_iff (h : m.Serializes) :
    m.RoundTrips ↔ (Bytes.encode m.key.toString.toList).length ≤ Constants.maxKeyLength ∧
      Bytes.strip m.key.toString.toList = m.key.toString.toList ∧ m.key.Plain := by
  constructor
  · rintro ⟨b, hb, hlen, hread⟩
    obtain ⟨ns, hns, hpack, hcount, -⟩ := h.obj.ints h.command
    have hints : (ns.flatMap Bytes.packInt).length = 32 := by
      rw [length_packedInts, hcount]
    unfold serialize at hb
    dsimp only at hb
    rw [if_pos h.key, hns] at hb
    obtain ⟨ints, hints', rfl⟩ := map_ok hb
    have hbytes : packInts ns = .ok ints := hints'
    rw [hpack] at hbytes
    cases hbytes
    unfold deserialize at hread
    rw [if_pos hlen, List.drop_left' hints] at hread
    split at hread
    · cases hread
    · rename_i text hdecode
      split at hread
      · cases hread
      · rename_i key hkey
        obtain ⟨obj, -, hm⟩ := map_ok hread
        have hkeys : key = m.key := congrArg ClientMetaMessage.key hm
        rw [hkeys] at hkey
        -- what was read is no shorter than the key's own text
        have hle := CacheEngineKey.length_toString_le hkey
        rw [String.toList_ofList] at hle
        obtain ⟨hfits, hstrip⟩ := Bytes.le_of_decode_field hdecode hle
        rw [Bytes.decode_fit_ljust hfits] at hdecode
        rw [← Option.some.inj hdecode, Bytes.strip_append_spaces, hstrip, String.ofList_toList] at hkey
        exact ⟨hfits, hstrip, (CacheEngineKey.fromString_toString_iff _).mp hkey⟩
  · rintro ⟨hle, hstrip, hplain⟩
    have hparsed := (CacheEngineKey.fromString_toString_iff m.key).mpr hplain
    have hfits : m.Fits := { command := h.command, obj := h.obj, key := hle, stripped := hstrip, parsed := hparsed }
    exact hfits.packed

end Experimental.ClientMetaMessage

/-! ## Keys and messages -/

/-- A model name with `@` : its key is not read back and has the text of another key; and a key that ends in a space is
packed, and another one is read back. -/
theorem model_with_at_is_not_read_back :
    CacheEngineKey.fromString (CacheEngineKey.toString ⟨"vllm", "org@v2", 1, 0, "ab"⟩) ≠
        some ⟨"vllm", "org@v2", 1, 0, "ab"⟩ ∧
      CacheEngineKey.toString ⟨"vllm", "org@v2", 1, 0, "ab"⟩ = CacheEngineKey.toString ⟨"vllm@org", "v2", 1, 0, "ab"⟩ ∧
      (⟨"vllm", "org@v2", 1, 0, "ab"⟩ : CacheEngineKey) ≠ ⟨"vllm@org", "v2", 1, 0, "ab"⟩ ∧
      ClientMetaMessage.Serializes ⟨2, "ab ", 0⟩ ∧ ¬ ClientMetaMessage.RoundTrips ⟨2, "ab ", 0⟩ := by
  have hserializes : ClientMetaMessage.Serializes ⟨2, "ab ", 0⟩ := ⟨by decide, by decide, by decide⟩
  refine ⟨?_, by decide, by decide, hserializes, ?_⟩
  · intro h
    exact absurd ((CacheEngineKey.fromString_toString_iff _).mp h).modelName (by decide)
  · intro h
    exact absurd ((ClientMetaMessage.roundTrip_iff hserializes).mp h).2 (by decide)

/-- **Which keys and messages survive.** A key is read back from its text exactly when no part of it contains `@`; no
other key has its text exactly when its format and model do not contain `@` and no two neighbouring parts of the worker
and the hash, with a part after them, are both integers; and a message that passes the assertions of `serialize` is
packed into `packlength()` bytes and read back exactly when its key takes at most 150 bytes and is stripped, and, in the
experimental protocol, no part of it contains `@`. -/
theorem roundTrips_iff (k : CacheEngineKey) (m : ClientMetaMessage) (e : Experimental.ClientMetaMessage) :
    (CacheEngineKey.fromString k.toString = some k ↔ k.Plain) ∧
      ((∀ k' : CacheEngineKey, k'.toString = k.toString → k' = k) ↔
        '@' ∉ k.fmt.toList ∧ '@' ∉ k.modelName.toList ∧ k.NoLaterNumbers) ∧
      (m.Serializes → (m.RoundTrips ↔
        (Bytes.encode m.key.toList).length ≤ Constants.maxKeyLength ∧ Bytes.strip m.key.toList = m.key.toList)) ∧
      (e.Serializes → (e.RoundTrips ↔
        (Bytes.encode e.key.toString.toList).length ≤ Constants.maxKeyLength ∧
          Bytes.strip e.key.toString.toList = e.key.toString.toList ∧ e.key.Plain)) :=
  ⟨CacheEngineKey.fromString_toString_iff k, CacheEngineKey.unique_iff k, ClientMetaMessage.roundTrip_iff,
    Experimental.ClientMetaMessage.roundTrip_iff⟩

/-- A request for a key, in both protocols. -/
theorem roundTrips_request :
    ClientMetaMessage.RoundTrips ⟨Constants.clientGet, "vllm@m@1@0@ab", 0⟩ ∧
      Experimental.ClientMetaMessage.RoundTrips
        ⟨Constants.clientGet, ⟨"vllm", "m", 1, 0, "ab"⟩, ⟨0, .undefined, some .float16, [0, 0, 0, 0]⟩⟩ := by
  obtain ⟨-, -, hm, he⟩ := roundTrips_iff ⟨"vllm", "m", 1, 0, "ab"⟩ ⟨Constants.clientGet, "vllm@m@1@0@ab", 0⟩
    ⟨Constants.clientGet, ⟨"vllm", "m", 1, 0, "ab"⟩, ⟨0, .undefined, some .float16, [0, 0, 0, 0]⟩⟩
  constructor
  · exact (hm ⟨by decide, by decide, by decide⟩).mpr ⟨by decide, by decide⟩
  · exact (he ⟨by decide, by decide, by decide⟩).mpr ⟨by decide, by decide, ⟨by decide, by decide, by decide⟩⟩

end FairCache
