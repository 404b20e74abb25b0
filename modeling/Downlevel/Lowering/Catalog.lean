import Downlevel.Lowering.Arrow
import Downlevel.Lowering.BlockScope
import Downlevel.Lowering.Exponent
import Downlevel.Lowering.Object
import Downlevel.Lowering.Param
import Downlevel.Lowering.Template
import Downlevel.Pass.Sequence

/-!
# The catalog

The lowerings, in the order in which they feed each other: arrow functions become functions before
defaults and rest parameters move into function bodies.
-/

namespace Downlevel

/-- The plugins, in the order in which they run. -/
def lowerings : List Plugin :=
  [Lowering.arrows, Lowering.conciseMethods, Lowering.defaultParams, Lowering.restParams,
    Lowering.shorthandProperties, Lowering.templateLiterals, Lowering.exponentOperator,
    Lowering.blockScope]

/-- Their passes. -/
def catalog : List Pass :=
  lowerings.map Plugin.toPass

/-- The pass of the catalog with this name. -/
def Pass.ofName? (name : String) : Option Pass :=
  catalog.find? (·.name = name)

end Downlevel
