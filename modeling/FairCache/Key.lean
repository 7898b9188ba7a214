import FairCache.Lib.Bytes
import Mathlib.Data.Int.Order.Basic
import Mathlib.Data.Prod.Lex
import Mathlib.Data.String.Basic

/-!
# Keys of the cache
-/

namespace FairCache

/-- The key of a chunk: its format, its model, the place of the worker and the hash of its prefix. -/
structure CacheEngineKey where
  fmt : String
  modelName : String
  worldSize : ℤ
  workerId : ℤ
  chunkHash : String
  deriving Repr

namespace CacheEngineKey

/-- The fields, to be compared one after the other. -/
def toTuple (k : CacheEngineKey) : String ×ₗ String ×ₗ ℤ ×ₗ ℤ ×ₗ String :=
  toLex (k.fmt, toLex (k.modelName, toLex (k.worldSize, toLex (k.workerId, k.chunkHash))))

theorem toTuple_injective : Function.Injective toTuple := by
  rintro ⟨f, m, s, w, h⟩ ⟨f', m', s', w', h'⟩ heq
  simp only [toTuple, EmbeddingLike.apply_eq_iff_eq, Prod.mk.injEq] at heq
  obtain ⟨rfl, rfl, rfl, rfl, rfl⟩ := heq
  rfl

/-- `@dataclass(order=True)`. -/
instance : LinearOrder CacheEngineKey := LinearOrder.lift' toTuple toTuple_injective

instance : LawfulBEq CacheEngineKey := inferInstance

/-- `to_string`. -/
def toString (k : CacheEngineKey) : String :=
  k.fmt ++ "@" ++ k.modelName ++ "@" ++ ToString.toString k.worldSize ++ "@" ++ ToString.toString k.workerId ++ "@" ++
    k.chunkHash

/-- `from_string` ; `none` is a `ValueError`. -/
def fromString (s : String) : Option CacheEngineKey :=
  match Lib.Bytes.split '@' s.toList with
  | [fmt, modelName, worldSize, workerId, chunkHash] =>
    match Lib.Bytes.parseInt worldSize, Lib.Bytes.parseInt workerId with
    | some worldSize, some workerId =>
      some ⟨String.ofList fmt, String.ofList modelName, worldSize, workerId, String.ofList chunkHash⟩
    | _, _ => none
  | _ => none

/-- A key for runs on concrete inputs. -/
def ofHash (chunkHash : String) : CacheEngineKey := ⟨"vllm", "model", 1, 0, chunkHash⟩

end CacheEngineKey

end FairCache
