import PlaceRoute.Mapping.Encoder
import PlaceRoute.Solver.Backbone
import PlaceRoute.Solver.Enumerate

/-!
# All mappings

`Encoder.mappings` lists the choices that some decisions can make under the assertions of an encoder, and
`Encoder.freedoms` says which decisions are forced.
-/

namespace PlaceRoute

open PlaceRoute.Sat (Engine)

/-- Lists of keys in lexicographic order. -/
def Key.listLE : List Key → List Key → Bool
  | [], _ => true
  | _ :: _, [] => false
  | a :: as, b :: bs =>
    match compare a b with
    | .lt => true
    | .eq => listLE as bs
    | .gt => false

namespace Encoder

/-- Every set of keys among `keys` that a model can set, each in order and all in order; `none` if there are more
than `limit`. -/
def mappings (engine : Engine) (keys : List Key) (limit : Nat) : EncodeM (Option (List (List Key))) := do
  let words ← keys.mapM lookup
  let rows ← checked (Solver.models engine words limit)
  let setKeys (row : List Nat) : List Key := ((keys.zip row).filter (·.2 ≠ 0)).map (·.1)
  pure (rows.map fun rows => (rows.map setKeys).mergeSort Key.listLE)

/-- The freedom of every declared decision. -/
def freedoms (engine : Engine) : EncodeM (List (Key × Freedom)) := do
  let keys := (← get).store.keys
  let bits ← keys.mapM bit
  return keys.zip (← checked (Solver.backbone engine bits))

end Encoder
end PlaceRoute
