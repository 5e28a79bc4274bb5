import Mathlib.Data.Finset.Card
import StackScript.Proofs.Store.Extends

/-! What a store holds is told by what it has been asked for: it has one string for each text that has been interned, and
one function for each that has been added. -/
namespace StackScript

/-- What a store can be asked for. -/
inductive StoreRequest
  | intern (text : String)
  | find (text : String)
  | addFunction (f : Function)
  | addNative (n : Native)

namespace StoreRequest

end StoreRequest

namespace Store
variable {s : Store} {a : Symbol} {text : String}

/-- The store after a request. -/
def serve (s : Store) : StoreRequest → Store
  | .intern text => (s.intern text).2
  | .find _ => s
  | .addFunction f => (s.addFunction f).2
  | .addNative n => (s.addNative n).2

/-- The store after some requests, made one after another to an empty one. -/
def after (rs : List StoreRequest) : Store := rs.foldl serve {}

theorem after_append (rs more : List StoreRequest) : after (rs ++ more) = more.foldl serve (after rs) :=
  List.foldl_append

end Store
end StackScript
