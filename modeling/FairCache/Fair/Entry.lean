import FairCache.Lib.Dict
import FairCache.MemPool
import Mathlib.Algebra.Order.Field.Basic

/-!
# Entries of the fair cache

`CacheEntry` is a resident block: its slot, who accessed it when, its decay rate and its score. The numbers live in
an ordered field `F` with `exp` and `log` given (`FloatMath`), so nothing here rounds.
-/

namespace FairCache

open Lib

/-- `math.exp` and `math.log`. -/
class FloatMath (F : Type) where
  exp : F → F
  log : F → F

/-- A rational stand-in that agrees with `math` where the runs on concrete inputs evaluate it: `exp 0 = 1` and
`log 1 = 0`. -/
instance : FloatMath ℚ where
  exp x := 1 + x
  log x := x - 1

/-- A resident block. -/
structure CacheEntry (F : Type) where
  kvObj : KVObj
  lastAccessTime : F
  /-- the last access of each client that shares the block -/
  accessMap : Dict ClientId F
  lambdaVal : F
  value : F

namespace CacheEntry

variable {F : Type}

/-- The clients that share the block. -/
def clients (e : CacheEntry F) : List ClientId := e.accessMap.keys

theorem nodup_clients (e : CacheEntry F) : e.clients.Nodup := e.accessMap.keys_nodup

/-- `update_access_time(client_id)`. -/
def updateAccessTime (e : CacheEntry F) (clientId : ClientId) (now : F) : CacheEntry F :=
  { e with lastAccessTime := now, accessMap := e.accessMap.set clientId now }

theorem clients_updateAccessTime (e : CacheEntry F) (c : ClientId) (now : F) :
    (e.updateAccessTime c now).clients = if c ∈ e.clients then e.clients else e.clients ++ [c] :=
  (Dict.keys_set _ _ _).trans (if_congr AList.mem_keys rfl rfl)

variable [Field F] [LinearOrder F] [FloatMath F]

/-- `calculate_value` : the time-independent score, a log-sum-exp of `lambda * t` over the last accesses. -/
def calculateValue (e : CacheEntry F) : F :=
  match e.accessMap.values.map (e.lambdaVal * ·) with
  | [] => e.lambdaVal * e.lastAccessTime
  | a :: as =>
    let m := as.foldl max a
    m + FloatMath.log ((a :: as).foldl (fun sumExp x => sumExp + FloatMath.exp (x - m)) 0)

/-- `update_value`. -/
def updateValue (e : CacheEntry F) : CacheEntry F := { e with value := e.calculateValue }

/-- `instant_value` : the value `P(t)` at the current time. -/
def instantValue (e : CacheEntry F) (currentTime : F) : F :=
  if e.accessMap.values = [] then FloatMath.exp (-e.lambdaVal * (currentTime - e.lastAccessTime))
  else e.accessMap.values.foldl (fun total t => total + FloatMath.exp (-e.lambdaVal * (currentTime - t))) 0

@[simp] theorem kvObj_updateValue (e : CacheEntry F) : e.updateValue.kvObj = e.kvObj := rfl
@[simp] theorem clients_updateValue (e : CacheEntry F) : e.updateValue.clients = e.clients := rfl
@[simp] theorem lambdaVal_updateValue (e : CacheEntry F) : e.updateValue.lambdaVal = e.lambdaVal := rfl

end CacheEntry

end FairCache
